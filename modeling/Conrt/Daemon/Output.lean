import Conrt.Daemon.Assembly
import Conrt.Daemon.Pipes

/-! What the log of a container holds once its output has ended. -/
namespace Conrt.Daemon

open Conrt.Base

variable {τ : Terms} {h h' : List Token} {w w' w₀ : World} {codec : Codec} {answers : List Answer}
  {pid : Pid} {tr es : List Entry} {t : Token} {loc : OpLocal} {fd : Option Handle} {want id : ℕ}
  {ok : Bool} {op : InFlight} {r : Result} {bytes : Bytes} {eof : Bool} {done : List Bytes}

def noteOutput (pid : Pid) (last : Option (Bytes × Bool)) : Entry → Option (Bytes × Bool)
  | .installed p detached tty _ =>
    if p = pid then (if detached && !tty then some ([], false) else none) else last
  | .read (.containerOutput p _) b =>
    if p = pid then last.map fun o => (o.1 ++ b, o.2 || b.isEmpty) else last
  | _ => last

/-- What the last container of the pid has written, as far as it has been read, and whether its end
has been read; for detached containers without a terminal. -/
def outputOf (pid : Pid) (tr : List Entry) : Option (Bytes × Bool) := tr.foldl (noteOutput pid) none

@[simp] theorem outputOf_append :
    outputOf pid (tr ++ es) = es.foldl (noteOutput pid) (outputOf pid tr) := List.foldl_append ..

namespace World

/-- The log that a request is answered from. -/
def logOf (w : World) (pid : Pid) : Option LogCache :=
  ((w.g.containers.lookup pid).map (·.gateway.cache)).or (w.g.logGraveyard.lookup pid)

def onTerminal (w : World) (pid : Pid) : Bool :=
  (w.g.containers.lookup pid).any (·.ptmFd.isSome)

variable {f : ContainerInfo → ContainerInfo} {info : ContainerInfo} {p : Pid}

theorem logOf_congr (hg : w'.g.containers = w.g.containers)
    (hl : w'.g.logGraveyard = w.g.logGraveyard) : w'.logOf = w.logOf := by
  funext p
  unfold logOf
  rw [hg, hl]

theorem onTerminal_congr (hg : w'.g.containers = w.g.containers) : w'.onTerminal = w.onTerminal := by
  funext p
  unfold onTerminal
  rw [hg]

theorem logOf_of_listed (hi : w.g.containers.lookup pid = some info) :
    w.logOf pid = some info.gateway.cache := by
  unfold logOf
  rw [hi]
  rfl

theorem onTerminal_of_listed (hi : w.g.containers.lookup pid = some info) :
    w.onTerminal pid = info.ptmFd.isSome := by
  unfold onTerminal
  rw [hi]
  rfl

/-- A change of one container that leaves its log alone. -/
theorem logOf_modify (hi : w.g.containers.lookup pid = some info)
    (hf : (f info).gateway.cache = info.gateway.cache) :
    (w.modifyContainer pid f).logOf = w.logOf := by
  funext p
  unfold logOf modifyContainer
  simp only [Table.lookup_update_ite]
  split_ifs with hp
  · rw [hp, hi]
    simp [hf]
  · rfl

theorem onTerminal_modify (hi : w.g.containers.lookup pid = some info)
    (hf : (f info).ptmFd = info.ptmFd) : (w.modifyContainer pid f).onTerminal = w.onTerminal := by
  funext p
  unfold onTerminal modifyContainer
  simp only [Table.lookup_update_ite]
  split_ifs with hp
  · rw [hp, hi]
    simp [hf]
  · rfl

theorem logOf_insert (hg : w'.g.containers = w.g.containers.insert pid info)
    (hl : w'.g.logGraveyard = w.g.logGraveyard) :
    w'.logOf p = if p = pid then some info.gateway.cache else w.logOf p := by
  unfold logOf
  rw [hg, hl, Table.lookup_insert_ite]
  split_ifs <;> rfl

theorem onTerminal_insert (hg : w'.g.containers = w.g.containers.insert pid info) :
    w'.onTerminal p = if p = pid then info.ptmFd.isSome else w.onTerminal p := by
  unfold onTerminal
  rw [hg, Table.lookup_insert_ite]
  split_ifs <;> rfl

/-- The log moves to the graveyard. -/
theorem logOf_bury (hi : w.g.containers.lookup pid = some info) :
    (w.buryContainer pid info).logOf = w.logOf := by
  funext p
  unfold logOf
  change ((AList.lookup p (w.g.containers.erase pid)).map _).or
    (AList.lookup p (w.g.logGraveyard.insert pid info.gateway.cache)) = _
  rw [Table.lookup_erase_ite, Table.lookup_insert_ite]
  split_ifs with hp
  · rw [hp, hi]
    rfl
  · rfl

theorem onTerminal_bury :
    (w.buryContainer pid info).onTerminal p = if p = pid then false else w.onTerminal p := by
  unfold onTerminal
  change (AList.lookup p (w.g.containers.erase pid)).any _ = _
  rw [Table.lookup_erase_ite]
  split_ifs <;> rfl

end World

private theorem LogGateway.cache_completeWrite {g : LogGateway} {x : ℕ} :
    (g.completeWrite x ok).1.cache = g.cache := by
  unfold completeWrite
  cases ok with
  | true =>
    simp only
    split <;> rfl
  | false =>
    simp only
    split <;> rfl

def readOf : Option Result → Bytes
  | some (.bytes b) => b
  | _ => []

/-- An output read in flight holds the partial line of what was read before it. -/
def OpDue (pid : Pid) (bytes : Bytes) (eof : Bool) (done : List Bytes) (op : InFlight) : Prop :=
  ∃ before lineBuf, op.loc = .containerOutput pid lineBuf ∧
    drainLines [] before = (done, lineBuf) ∧ bytes = before ++ readOf op.result ∧
      eof = decide (op.result = some (.bytes []))

/-- A drain in hand holds the lines that are not in the log yet, and the partial line. -/
def TokenDue (pid : Pid) (bytes : Bytes) (eof : Bool) (done : List Bytes) (t : Token) : Prop :=
  ∃ lines lineBuf ended, t = .drain .output pid lines lineBuf ended ∧
    (drainLines [] bytes).1 = done ++ lines ∧
      (ended = false → (drainLines [] bytes).2 = lineBuf ∧ eof = false)

/-- The log of a container has the lines that its one drain does not hold. -/
structure Logged (h : List Token) (w : World) (pid : Pid) (bytes : Bytes) (eof : Bool) : Prop where
  plain : w.onTerminal pid = false
  single : (w.drains pid).getD 0 ≤ 1
  idle : w.drains pid = some 0 → bytes = [] ∧ eof = false ∧ w.logOf pid = some (.new logCapacity)
  lines : ∃ done cache, done.foldlM LogCache.push (.new logCapacity) = some cache ∧
    w.logOf pid = some cache ∧
      (∀ op ∈ w.ops, op.loc.drainOf = some pid → OpDue pid bytes eof done op) ∧
        (∀ t ∈ h, t.drainOf = some pid → TokenDue pid bytes eof done t) ∧
          (eof = true → drainLines [] bytes = (done, []))

theorem Logged.congr (hx : Logged h w pid bytes eof) (hterm : w'.onTerminal pid = w.onTerminal pid)
    (hdr : w'.drains pid = w.drains pid) (hlog : w'.logOf pid = w.logOf pid)
    (hops : ∀ op ∈ w'.ops, op.loc.drainOf = some pid → op ∈ w.ops)
    (hh : ∀ t ∈ h', t.drainOf = some pid → t ∈ h) : Logged h' w' pid bytes eof := by
  obtain ⟨done, cache, hpush, hcache, hop, ht, heof⟩ := hx.lines
  refine ⟨hterm ▸ hx.plain, hdr ▸ hx.single, fun h0 => hlog ▸ hx.idle (hdr ▸ h0), done, cache, hpush,
    hlog ▸ hcache, ?_, ?_, heof⟩
  · exact fun op hmem hpid => hop op (hops op hmem hpid) hpid
  · exact fun t hmem hpid => ht t (hh t hmem hpid) hpid

def drainTokens (h : List Token) : List Token := h.filter (·.drainOf.isSome)

@[simp] theorem drainTokens_append : drainTokens (h ++ h') = drainTokens h ++ drainTokens h' :=
  List.filter_append ..

@[simp] theorem drainTokens_cons : drainTokens (t :: h) =
    if t.drainOf.isSome then t :: drainTokens h else drainTokens h := List.filter_cons

theorem drainTokens_map {α : Type} {f : α → Token} {l : List α} (hf : ∀ a, (f a).drainOf = none) :
    drainTokens (l.map f) = [] := by
  unfold drainTokens
  rw [List.filter_eq_nil_iff]
  intro t ht
  obtain ⟨a, -, rfl⟩ := List.mem_map.mp ht
  simp [hf a]

@[simp] theorem drainTokens_hold {ds : List Handle} : drainTokens (hold ds) = [] :=
  drainTokens_map fun _ => rfl

@[simp] theorem drainTokens_holdFresh {ds : List Handle} : drainTokens (holdFresh ds) = [] :=
  drainTokens_map fun _ => rfl

@[simp] theorem drainTokens_overlays {dirs : List ℕ} : drainTokens (dirs.map Token.overlay) = [] :=
  drainTokens_map fun _ => rfl

@[simp] theorem drainTokens_checks {sids : List ℕ} : drainTokens (sids.map Token.check) = [] :=
  drainTokens_map fun _ => rfl

theorem mem_of_drainTokens (hh : drainTokens h' ⊆ drainTokens h) (hmem : t ∈ h')
    (hpid : t.drainOf = some pid) : t ∈ h :=
  (List.mem_filter.mp (hh (List.mem_filter.mpr ⟨hmem, by simp [hpid]⟩))).1

def AllLogged (h : List Token) (w : World) : Prop :=
  ∀ pid bytes eof, outputOf pid w.trace = some (bytes, eof) → Logged h w pid bytes eof

theorem AllLogged.congr (hx : AllLogged h w) (hterm : w'.onTerminal = w.onTerminal)
    (hdr : w'.drains = w.drains) (hlog : w'.logOf = w.logOf)
    (hops : ∀ op ∈ w'.ops, op.loc.drainOf ≠ none → op ∈ w.ops)
    (hh : drainTokens h' ⊆ drainTokens h)
    (htr : ∀ pid, outputOf pid w'.trace = outputOf pid w.trace) : AllLogged h' w' := by
  intro pid bytes eof ho
  rw [htr] at ho
  refine (hx pid bytes eof ho).congr (by rw [hterm]) (by rw [hdr]) (by rw [hlog]) ?_ ?_
  · exact fun op hmem hpid => hops op hmem (by simp [hpid])
  · exact fun t hmem hpid => mem_of_drainTokens hh hmem hpid

/-- A drain of a container without a terminal is the only one. -/
theorem Logged.alone (hx : Logged (t :: h) w pid bytes eof) (hd : DrainBalance (t :: h) w)
    (ht : t.drainOf = some pid) :
    (∀ op ∈ w.ops, op.loc.drainOf ≠ some pid) ∧ (∀ t ∈ h, t.drainOf ≠ some pid) ∧
      w.drains pid = some 1 := by
  have hbal := hd pid
  have hsingle := hx.single
  rw [drainsHeld_cons, if_pos ht] at hbal
  have hops : w.draining pid = 0 := by omega
  have hheld : drainsHeld pid h = 0 := by omega
  refine ⟨fun op hop => ?_, fun t hmem => ?_, ?_⟩
  · simpa using List.countP_eq_zero.mp hops op hop
  · simpa using List.countP_eq_zero.mp hheld t hmem
  · cases hdr : w.drains pid with
    | none =>
      rw [hdr] at hbal
      simp at hbal
    | some n =>
      rw [hdr] at hbal hsingle
      simp only [Option.getD_some] at hbal hsingle
      congr 1
      omega

/-- Everything else about the container is as it was; its one drain has moved on. -/
theorem Logged.advance (cache : LogCache) (done' : List Bytes)
    (hx : Logged (t :: h) w pid bytes eof) (hd : DrainBalance (t :: h) w) (ht : t.drainOf = some pid)
    (hterm : w'.onTerminal pid = w.onTerminal pid) (hdr : w'.drains pid = w.drains pid)
    (hpush : done'.foldlM LogCache.push (.new logCapacity) = some cache)
    (hlog : w'.logOf pid = some cache) (heof : eof = false)
    (hops : ∀ op ∈ w'.ops, op.loc.drainOf = some pid → op ∈ w.ops ∨ OpDue pid bytes eof done' op)
    (hh : ∀ t ∈ h', t.drainOf = some pid → t ∈ h ∨ TokenDue pid bytes eof done' t) :
    Logged h' w' pid bytes eof := by
  obtain ⟨hops', hh', hone⟩ := hx.alone hd ht
  refine ⟨hterm ▸ hx.plain, hdr ▸ hx.single, fun h0 => ?_, done', cache, hpush, hlog, ?_, ?_, ?_⟩
  · rw [hdr, hone] at h0
    cases h0
  · intro op hmem hpid
    exact (hops op hmem hpid).resolve_left fun hop => hops' op hop hpid
  · intro t hmem hpid
    exact (hh t hmem hpid).resolve_left fun ht => hh' t ht hpid
  · intro htrue
    rw [heof] at htrue
    cases htrue

theorem AllLogged.pushLine {kind : Drain} {line lineBuf : Bytes} {lines : List Bytes}
    {info : ContainerInfo} {gateway : LogGateway} {ids : List ℕ}
    (hx : AllLogged (.drain kind pid (line :: lines) lineBuf false :: h) w)
    (hd : DrainBalance (.drain kind pid (line :: lines) lineBuf false :: h) w)
    (hi : w.g.containers.lookup pid = some info)
    (hpush : info.gateway.push line = some (gateway, ids)) :
    AllLogged ((ids.map fun id => .line pid id line) ++ .drain kind pid lines lineBuf false :: h)
      ((w.modifyContainer pid ({ · with gateway := gateway })).note
        (.pushed pid line w.followIds)) := by
  intro p bytes eof ho
  have hold := hx p bytes eof (by simpa [noteOutput] using ho)
  have hterm : (w.modifyContainer pid ({ · with gateway := gateway })).onTerminal = w.onTerminal :=
    World.onTerminal_modify hi rfl
  have hdr : (w.modifyContainer pid ({ · with gateway := gateway })).drains = w.drains := by simp
  have hheld : ∀ t ∈ (ids.map fun id => Token.line pid id line) ++
      .drain kind pid lines lineBuf false :: h, t.drainOf = some p →
        t = .drain kind pid lines lineBuf false ∨ t ∈ h := by
    intro t hmem hpid
    rcases List.mem_append.mp hmem with hmem | hmem
    · obtain ⟨id, -, rfl⟩ := List.mem_map.mp hmem
      cases hpid
    · exact List.mem_cons.mp hmem
  by_cases hp : p = pid
  · subst hp
    obtain ⟨done, cache, hfold, hlog, -, htokens, -⟩ := hold.lines
    obtain ⟨lines', lineBuf', ended, htok, hlines, hrest⟩ := htokens _ List.mem_cons_self rfl
    cases htok
    obtain ⟨hrest, heof⟩ := hrest rfl
    rw [World.logOf_of_listed hi] at hlog
    obtain rfl := Option.some.inj hlog
    refine hold.advance gateway.cache (done ++ [line]) hd rfl
      (congrFun hterm p) (congrFun hdr p) ?_ ?_ heof (fun op hop _ => .inl hop) fun t hmem hpid => ?_
    · rw [List.foldlM_append, hfold]
      simpa using (LogGateway.push_eq hpush).2.2
    · have hi' := lookup_modifyContainer (f := ({ · with gateway := gateway })) hi
      exact World.logOf_of_listed hi'
    · rcases hheld t hmem hpid with rfl | ht
      · refine .inr ⟨lines, lineBuf, false, rfl, ?_, fun _ => ⟨hrest, heof⟩⟩
        simpa using hlines
      · exact .inl ht
  · refine hold.congr (congrFun hterm p) (congrFun hdr p) ?_ (fun op hop _ => hop) fun t hmem hpid => ?_
    · unfold World.logOf World.note World.modifyContainer
      simp only [Table.lookup_update_ite, if_neg hp]
    · rcases hheld t hmem hpid with rfl | ht
      · exact (hp (Option.some.inj hpid).symm).elim
      · exact List.mem_cons_of_mem _ ht

theorem AllLogged.rearm {kind : Drain} {lineBuf : Bytes}
    (hx : AllLogged (.drain kind pid [] lineBuf false :: h) w)
    (hd : DrainBalance (.drain kind pid [] lineBuf false :: h) w) :
    AllLogged h (w.submit (kind.loc pid lineBuf) fd want true) := by
  intro p bytes eof ho
  have hold := hx p bytes eof (by simpa [noteOutput] using ho)
  by_cases hp : p = pid
  · subst hp
    obtain ⟨done, cache, hfold, hlog, -, htokens, -⟩ := hold.lines
    obtain ⟨lines, lineBuf', ended, htok, hlines, hrest⟩ := htokens _ List.mem_cons_self rfl
    cases htok
    obtain ⟨hrest, heof⟩ := hrest rfl
    refine hold.advance cache done hd rfl rfl rfl hfold hlog heof (fun op hmem _ => ?_) fun t hmem _ => .inl hmem
    rw [World.ops_submit, if_pos rfl] at hmem
    rcases List.mem_append.mp hmem with hmem | hmem
    · exact .inl hmem
    · rw [List.mem_singleton.mp hmem]
      refine .inr ⟨bytes, lineBuf, rfl, ?_, (List.append_nil bytes).symm, by rw [heof]; rfl⟩
      rw [List.append_nil] at hlines
      exact Prod.ext hlines hrest
  · refine hold.congr rfl rfl rfl (fun op hmem hpid => ?_) fun t hmem _ => List.mem_cons_of_mem _ hmem
    rw [World.ops_submit, if_pos rfl] at hmem
    rcases List.mem_append.mp hmem with hmem | hmem
    · exact hmem
    · rw [List.mem_singleton.mp hmem, drainOf_loc] at hpid
      exact (hp (Option.some.inj hpid).symm).elim

theorem AllLogged.retire (hx : AllLogged h w) (hop : w.findOp id = some op)
    (hr : op.result = some r) : AllLogged (op.loc.tokens r ++ h) (w.takeOp id) := by
  intro p bytes eof ho
  have hold := hx p bytes eof ho
  obtain ⟨done, cache, hfold, hlog, hops, htokens, heof⟩ := hold.lines
  refine ⟨hold.plain, hold.single, hold.idle, done, cache, hfold, hlog,
    fun o hmem => hops o (List.mem_of_mem_eraseP hmem), fun t hmem hpid => ?_, heof⟩
  rcases List.mem_append.mp hmem with hmem | hmem
  · have hloc : op.loc.drainOf = some p := by
      by_contra hne
      have hzero : drainsHeld p (op.loc.tokens r) = _ := drainsHeld_tokens
      rw [if_neg hne] at hzero
      have := List.countP_eq_zero.mp hzero t hmem
      simp [hpid] at this
    obtain ⟨before, lineBuf, hloc', hbefore, hbytes, heq⟩ :=
      hops op (List.mem_of_find?_eq_some hop) hloc
    rw [hloc', OpLocal.tokens, List.mem_singleton] at hmem
    rw [hr] at hbytes heq
    have hfirst : (drainLines [] before).1 = done := by rw [hbefore]
    have hsecond : (drainLines [] before).2 = lineBuf := by rw [hbefore]
    unfold drainToken at hmem
    split at hmem
    · rename_i b bs _
      refine ⟨(drainLines lineBuf (b :: bs)).1, (drainLines lineBuf (b :: bs)).2, false, hmem, ?_,
        fun _ => ⟨?_, by simp [heq]⟩⟩
      · rw [hbytes, readOf, drainLines_append, hfirst, hsecond]
      · rw [hbytes, readOf, drainLines_append, hsecond]
    · rename_i hno
      have hnil : readOf (some r) = [] := by
        obtain rfl | ⟨n, rfl⟩ | ⟨fd, rfl⟩ | ⟨b, sender, rfl⟩ | ⟨errno, rfl⟩ :=
          Result.nothing_cases hno <;> rfl
      refine ⟨_, _, _, hmem, ?_, fun hended => by cases hended⟩
      rw [hbytes, hnil, List.append_nil, List.append_nil, hfirst]
  · exact htokens t hmem hpid

/-- A new container has written nothing. -/
theorem AllLogged.install {info : ContainerInfo} {detached tty : Bool} {ds : List Handle}
    (hx : AllLogged h w) (hd : DrainBalance h w) (hgw : info.gateway = .new logCapacity)
    (hzero : info.drainsPending = 0) (hnone : w.g.containers.lookup pid = none)
    (htty : detached = true → tty = info.ptmFd.isSome)
    (hg : w'.g.containers = w.g.containers.insert pid info)
    (hl : w'.g.logGraveyard = w.g.logGraveyard) (hops : w'.ops = w.ops)
    (hh : drainTokens h' ⊆ drainTokens h)
    (htr : w'.trace = w.trace ++ [.installed pid detached tty ds]) : AllLogged h' w' := by
  have hbal := hd pid
  rw [World.drains, hnone] at hbal
  simp only [Option.map_none, Option.getD_none] at hbal
  have hnoOp : ∀ op ∈ w.ops, op.loc.drainOf ≠ some pid := fun op hop => by
    have hzero : w.draining pid = 0 := by omega
    simpa using List.countP_eq_zero.mp hzero op hop
  have hnoToken : ∀ t ∈ h, t.drainOf ≠ some pid := fun t hmem => by
    have hzero : drainsHeld pid h = 0 := by omega
    simpa using List.countP_eq_zero.mp hzero t hmem
  intro p bytes eof ho
  rw [htr, outputOf_append] at ho
  by_cases hp : p = pid
  · subst hp
    simp only [List.foldl_cons, List.foldl_nil, noteOutput, if_true] at ho
    split_ifs at ho with hplain
    obtain ⟨rfl, rfl⟩ := Prod.mk.inj (Option.some.inj ho)
    simp only [Bool.and_eq_true, Bool.not_eq_true'] at hplain
    have hlog : w'.logOf p = some (.new logCapacity) := by
      rw [World.logOf_insert hg hl, if_pos rfl, hgw]
      rfl
    refine ⟨?_, ?_, fun _ => ⟨rfl, rfl, hlog⟩, [], .new logCapacity, rfl, hlog, ?_, ?_, ?_⟩
    · rw [World.onTerminal_insert hg, if_pos rfl, ← htty hplain.1, hplain.2]
    · rw [World.drains_insert p info hg, if_pos rfl, hzero]
      exact Nat.zero_le 1
    · rw [hops]
      exact fun op hop hpid => (hnoOp op hop hpid).elim
    · exact fun t hmem hpid => (hnoToken t (mem_of_drainTokens hh hmem hpid) hpid).elim
    · exact fun htrue => by cases htrue
  · simp only [List.foldl_cons, List.foldl_nil, noteOutput, if_neg (Ne.symm hp)] at ho
    refine (hx p bytes eof ho).congr ?_ ?_ ?_ (fun op hop _ => hops ▸ hop) fun t hmem hpid => ?_
    · rw [World.onTerminal_insert hg, if_neg hp]
    · rw [World.drains_insert pid info hg, if_neg hp]
    · rw [World.logOf_insert hg hl, if_neg hp]
    · exact mem_of_drainTokens hh hmem hpid

/-- The first drain starts before anything has been read. -/
theorem AllLogged.addDrain {kind : Drain} {info : ContainerInfo} (hx : AllLogged h w)
    (hd : DrainBalance h w) (hi : w.g.containers.lookup pid = some info) (hfirst : kind.First info) :
    AllLogged (.drain kind pid [] [] false :: h) (w.modifyContainer pid
      fun info => { info with drainsPending := info.drainsPending + 1 }) := by
  intro p bytes eof ho
  have hold := hx p bytes eof ho
  have hterm : (w.modifyContainer pid fun info =>
      { info with drainsPending := info.drainsPending + 1 }).onTerminal = w.onTerminal :=
    World.onTerminal_modify hi rfl
  have hlog : (w.modifyContainer pid fun info =>
      { info with drainsPending := info.drainsPending + 1 }).logOf = w.logOf :=
    World.logOf_modify hi rfl
  by_cases hp : p = pid
  · subst hp
    have hplain := hold.plain
    rw [World.onTerminal_of_listed hi] at hplain
    cases kind with
    | pty =>
      refine (hfirst ?_).elim
      simpa using hplain
    | output =>
      have hzero : info.drainsPending = 0 := hfirst
      obtain ⟨rfl, rfl, hnew⟩ := hold.idle (by rw [drains_eq hi, hzero])
      have hbal := hd p
      rw [drains_eq hi, hzero, Option.getD_some] at hbal
      have hone : (w.modifyContainer p fun info =>
          { info with drainsPending := info.drainsPending + 1 }).drains p = some 1 := by
        rw [World.drains_modifyContainer, if_pos rfl, hi, Option.map_some, hzero]
      refine ⟨(congrFun hterm p).trans hold.plain, by rw [hone]; exact le_rfl, fun hidle => ?_,
        [], .new logCapacity, rfl, (congrFun hlog p).trans hnew, fun op hop hpid => ?_,
        fun t hmem hpid => ?_, fun htrue => by cases htrue⟩
      · rw [hone] at hidle
        cases hidle
      · have hops : w.draining p = 0 := by omega
        exact absurd hpid (by simpa using List.countP_eq_zero.mp hops op hop)
      · rcases List.mem_cons.mp hmem with rfl | hmem
        · exact ⟨[], [], false, rfl, rfl, fun _ => ⟨rfl, rfl⟩⟩
        · have hheld : drainsHeld p h = 0 := by omega
          exact absurd hpid (by simpa using List.countP_eq_zero.mp hheld t hmem)
  · refine hold.congr (congrFun hterm p) ?_ (congrFun hlog p) (fun op hop _ => hop) fun t hmem hpid => ?_
    · rw [World.drains_modifyContainer, if_neg hp]
    · rcases List.mem_cons.mp hmem with rfl | hmem
      · exact (hp (Option.some.inj hpid).symm).elim
      · exact hmem

theorem mem_submit (hloc : loc.drainOf = none) :
    ∀ op ∈ (w.submit loc fd want ok).ops, op.loc.drainOf ≠ none → op ∈ w.ops := by
  intro op hop hne
  rw [World.ops_submit] at hop
  split_ifs at hop
  · rcases List.mem_append.mp hop with hop | hop
    · exact hop
    · rw [List.mem_singleton.mp hop] at hne
      exact (hne hloc).elim
  · exact hop

theorem mem_beginFrame {stream : Fd .stream} {frame : Frame} (hloc : loc.drainOf = none) :
    ∀ op ∈ (w.beginFrame stream frame loc want ok).ops, op.loc.drainOf ≠ none → op ∈ w.ops := by
  have hops : (w.beginFrame stream frame loc want ok).ops =
      (w.submit loc (some stream.handle) want ok).ops := by
    unfold World.beginFrame
    split_ifs <;> rfl
  rw [hops]
  exact mem_submit hloc

/-- A drain in hand belongs to a listed container. -/
theorem DrainBalance.listed (hd : DrainBalance h w) (hmem : t ∈ h) (hpid : t.drainOf = some pid) :
    w.g.containers.lookup pid ≠ none := by
  intro hnone
  have hbal := hd pid
  rw [World.drains, hnone] at hbal
  have hheld : 0 < drainsHeld pid h := List.countP_pos_iff.mpr ⟨t, hmem, by simp [hpid]⟩
  simp only [Option.map_none, Option.getD_none] at hbal
  omega

/-- A container that is taken out of the table. -/
theorem AllLogged.bury {info : ContainerInfo} (hx : AllLogged h w)
    (hi : w.g.containers.lookup pid = some info) (hh : drainTokens h' ⊆ drainTokens h) :
    AllLogged h' (w.buryContainer pid info) := by
  intro p bytes eof ho
  have hold := hx p bytes eof (by simpa [noteOutput] using ho)
  have hlog := congrFun (World.logOf_bury hi) p
  by_cases hp : p = pid
  · obtain ⟨done, cache, hfold, hcache, hops, htokens, heof⟩ := hold.lines
    have hnone : (w.buryContainer pid info).drains p = none := by
      rw [World.drains_erase (w := w) pid rfl, if_pos hp]
    refine ⟨?_, by rw [hnone]; exact Nat.zero_le 1, fun h0 => ?_, done, cache, hfold,
      hlog.trans hcache, hops, fun t hmem hpid => ?_, heof⟩
    · rw [World.onTerminal_bury, if_pos hp]
    · rw [hnone] at h0
      cases h0
    · exact htokens t (mem_of_drainTokens hh hmem hpid) hpid
  · refine hold.congr ?_ ?_ hlog (fun op hop _ => hop) fun t hmem hpid => ?_
    · rw [World.onTerminal_bury, if_neg hp]
    · rw [World.drains_erase (w := w) pid rfl, if_neg hp]
    · exact mem_of_drainTokens hh hmem hpid

theorem AllLogged.reap {exitCode : ℤ} (hx : AllLogged h w) (told : Option ℕ) :
    AllLogged h (w.reap pid exitCode told) := by
  have hl : (w.reap pid exitCode told).g.logGraveyard = w.g.logGraveyard := by cases told <;> rfl
  refine hx.congr (World.onTerminal_congr World.containers_reap) World.drains_reap
    (World.logOf_congr World.containers_reap hl) (fun op hop _ => ?_) (by simp) fun p => ?_
  · rwa [World.ops_reap] at hop
  · simp [noteOutput]

theorem Move.allLogged (hτ : τ.fresh) (hm : Move τ (h, w) (h', w')) (hd : DrainBalance h w)
    (hx : AllLogged h w) : AllLogged h' w' := by
  cases hm with
  | pushLine hi hpush =>
    rw [lines_of_push hpush]
    exact hx.pushLine hd hi hpush
  | pushBuried hnone | pushLost hnone
  | drainGone hnone => exact (hd.listed List.mem_cons_self rfl hnone).elim
  | rearm => exact hx.rearm hd
  | retire hop hr => exact hx.retire hop hr
  | installDetached hgw hzero hpid hfresh hnovel htty =>
    exact hx.install hd hgw hzero (hfresh hτ) (fun _ => htty) rfl rfl rfl (by simp) rfl
  | installAttached hgw hzero hpid hfresh =>
    exact hx.install hd hgw hzero (hfresh hτ) (fun hf => by cases hf) rfl rfl rfl (by simp) rfl
  | addDrain kind hi hfirst => exact hx.addDrain hd hi hfirst
  | @drainEnds _ _ kind pid lineBuf ended info hi hpos =>
    intro p bytes eof ho
    have hold := hx p bytes eof ho
    by_cases hp : p = pid
    · have hsingle := hold.single
      rw [hp, drains_eq hi, Option.getD_some] at hsingle
      omega
    · refine hold.congr ?_ ?_ ?_ (fun op hop _ => hop) fun t hmem _ => List.mem_cons_of_mem _ hmem
      · exact congrFun (World.onTerminal_modify hi rfl) p
      · rw [World.drains_modifyContainer, if_neg hp]
      · exact congrFun (World.logOf_modify hi rfl) p
  | @dropPtm _ _ pid info fd hi hptm =>
    intro p bytes eof ho
    have hold := hx p bytes eof ho
    by_cases hp : p = pid
    · have hplain := hold.plain
      rw [hp, World.onTerminal_of_listed hi, hptm] at hplain
      cases hplain
    · refine hold.congr ?_ ?_ ?_ (fun op hop _ => hop) fun t hmem hpid => ?_
      · unfold World.onTerminal World.modifyContainer
        simp only [Table.lookup_update_ite, if_neg hp]
      · simp
      · exact congrFun (World.logOf_modify hi rfl) p
      · exact (List.mem_cons.mp hmem).resolve_left fun heq => by rw [heq] at hpid; cases hpid
  | buryDrained hi => exact hx.bury hi (by simp; split_ifs <;> simp)
  | @buryReaped _ _ pid exitCode told info hpid hmeets htold hi =>
    refine AllLogged.bury (h := h) (hx.reap told) ?_ (by simp)
    rw [World.containers_reap]
    exact hi
  | @reaped _ _ pid exitCode told =>
    exact (hx.reap told).congr rfl rfl rfl (fun _ hop _ => hop) (by simp) fun _ => rfl
  | perm hp =>
    refine hx.congr rfl rfl rfl (fun _ hop _ => hop) ?_ fun _ => rfl
    exact (hp.filter _).subset
  | @note _ _ e he =>
    refine hx.congr rfl rfl rfl (fun _ hop _ => hop) (by simp) fun pid => ?_
    cases e <;> first | exact he.elim | simp [noteOutput]
  | @release _ _ t d ht =>
    refine hx.congr rfl rfl rfl (fun _ hop _ => hop) ?_ fun pid => by simp [noteOutput]
    rw [drainTokens_cons]
    split_ifs <;> simp
  | refused hloose =>
    exact hx.congr rfl rfl rfl (mem_submit (drainOf_of_loose hloose)) (by simp) (by simp [noteOutput])
  | denied ht | starved ht =>
    refine hx.congr rfl rfl rfl (fun _ hop _ => hop) ?_ (by simp [noteOutput])
    rw [drainTokens_cons]
    split_ifs <;> simp
  | read hr =>
    exact hx.congr rfl rfl rfl (mem_submit (drainOf_of_reader hr)) (by simp) (by simp [noteOutput])
  | output | offer => exact hx.congr rfl rfl rfl (mem_submit rfl) (by simp) (by simp [noteOutput])
  | passFd | follow =>
    exact hx.congr rfl rfl rfl (mem_submit rfl) (by simp [Token.drainOf]) (by simp [noteOutput])
  | relisten hl =>
    refine hx.congr rfl rfl rfl (mem_submit (drainOf_of_loop hl)) ?_ (by simp [noteOutput])
    simp [Token.drainOf]
  | respond hs hc | data hs hc =>
    refine hx.congr (World.onTerminal_congr (by simp)) (by simp) (World.logOf_congr (by simp) (by simp))
      (mem_beginFrame rfl) (by simp) fun pid => by simp [noteOutput]
  | @finish _ _ sid want sess ok =>
    refine hx.congr (World.onTerminal_congr (by simp; rfl)) (by simp)
      (World.logOf_congr (by simp; rfl) (by simp; rfl)) (mem_beginFrame rfl)
      (by simp [Token.drainOf]) fun pid => ?_
    cases ok <;> simp [noteOutput]
  | resume hop hr hres =>
    obtain ⟨hnone, hnone'⟩ := drainOf_of_resumes hres
    refine hx.congr rfl rfl rfl (fun op hmem hne => ?_) (by simp) fun pid => by simp [noteOutput]
    exact List.mem_of_mem_eraseP (mem_submit hnone' op hmem hne)
  | wrote hi =>
    refine hx.congr (World.onTerminal_modify hi rfl) (by simp)
      (World.logOf_modify hi LogGateway.cache_completeWrite) (fun _ hop _ => hop)
      (by simp [Token.drainOf]) fun pid => rfl
  | adoptAttach hs hi | attachGone hs hi =>
    exact hx.congr (World.onTerminal_modify hi rfl) (by simp) (World.logOf_modify hi rfl)
      (fun _ hop _ => hop) (by simp) fun pid => by simp [noteOutput]
  | followPipe hi =>
    exact hx.congr (World.onTerminal_modify hi rfl) (by simp) (World.logOf_modify hi rfl)
      (fun _ hop _ => hop) (by simp [Token.drainOf]) fun pid => by simp [noteOutput]
  | _ =>
    refine hx.congr rfl rfl rfl (fun _ hop _ => hop) ?_ fun pid => ?_
    · first | exact fun _ ht => ht | simp
    · first | rfl | simp [noteOutput]

/-- The output of a container ends after a newline, or is empty. -/
def Terminated (w : World) : Event → Prop
  | .perform id r => ∀ op ∈ w.findOp id, r = .bytes [] →
    match op.loc with
    | .containerOutput pid _ =>
      ∀ o ∈ outputOf pid w.trace, o.1.getLast?.all (· = newline) = true
    | _ => True
  | .enter | .deliver _ _ => True

instance {loc : OpLocal} : Decidable (match loc with
    | .containerOutput pid _ =>
      ∀ o ∈ outputOf pid w.trace, o.1.getLast?.all (· = newline) = true
    | _ => True) := by
  split <;> infer_instance

instance {e : Event} : Decidable (Terminated w e) := by
  unfold Terminated
  split <;> infer_instance

private theorem outputOf_performed (hloc : ∀ lineBuf, op.loc ≠ .containerOutput pid lineBuf) :
    outputOf pid (w.perform op r).trace = outputOf pid w.trace := by
  rw [World.trace_perform, outputOf_append]
  unfold World.performed
  cases r with
  | bytes b =>
    cases hop : op.loc with
    | containerOutput p lineBuf =>
      have hne : p ≠ pid := fun heq => hloc lineBuf (heq ▸ hop)
      simp [noteOutput, hne]
    | _ => rfl
  | count n =>
    cases w.reached op with
    | none => rfl
    | some f =>
      simp only
      split_ifs <;> rfl
  | _ => rfl

private theorem outputOf_read {lineBuf : Bytes} (hloc : op.loc = .containerOutput pid lineBuf) :
    outputOf pid (w.perform op r).trace = (outputOf pid w.trace).map fun o =>
      (o.1 ++ readOf (some r), o.2 || decide (some r = some (.bytes []))) := by
  rw [World.trace_perform, outputOf_append]
  unfold World.performed
  cases r with
  | bytes b => cases b <;> simp [noteOutput, hloc, readOf]
  | count n =>
    cases w.reached op with
    | none => simp [readOf]
    | some f =>
      simp only
      split_ifs <;> simp [noteOutput, readOf]
  | _ => simp [noteOutput, readOf]

theorem AllLogged.perform (hx : AllLogged [] w) (hd : DrainBalance [] w) (hn : w.Numbered)
    (hop : w.findOp op.id = some op) (hr : op.result = none) (hok : Terminated w (.perform op.id r)) :
    AllLogged [] (w.perform op r) := by
  have hg : (w.perform op r).g = w.g := World.g_perform
  have hterm : (w.perform op r).onTerminal = w.onTerminal := World.onTerminal_congr (by rw [hg])
  have hdr : (w.perform op r).drains = w.drains := World.drains_perform
  have hlog : (w.perform op r).logOf = w.logOf := World.logOf_congr (by rw [hg]) (by rw [hg])
  obtain ⟨l₁, l₂, hl, hl'⟩ := World.ops_perform (r := r) hn hop
  have hmem := List.mem_of_find?_eq_some hop
  intro p bytes eof ho
  by_cases hloc : ∃ lineBuf, op.loc = .containerOutput p lineBuf
  · obtain ⟨lineBuf, hloc⟩ := hloc
    rw [outputOf_read hloc] at ho
    obtain ⟨⟨bytes₀, eof₀⟩, hold, heq⟩ := Option.map_eq_some_iff.mp ho
    obtain ⟨rfl, rfl⟩ := Prod.mk.inj heq
    have hx₀ := hx p bytes₀ eof₀ hold
    have hpid : op.loc.drainOf = some p := by rw [hloc]; rfl
    -- the op is the container's only drain
    have hbal := hd p
    have hsingle := hx₀.single
    have hcount : w.draining p = l₁.countP (fun op => op.loc.drainOf = some p) +
        (l₂.countP (fun op => op.loc.drainOf = some p) + 1) := by
      unfold World.draining World.opCount
      rw [hl, List.countP_append, List.countP_cons, if_pos (by simpa using hpid)]
    have hothers : ∀ o, o ∈ l₁ ∨ o ∈ l₂ → o.loc.drainOf ≠ some p := by
      have hzero₁ : l₁.countP (fun op => op.loc.drainOf = some p) = 0 := by omega
      have hzero₂ : l₂.countP (fun op => op.loc.drainOf = some p) = 0 := by omega
      rintro o (ho | ho)
      · simpa using List.countP_eq_zero.mp hzero₁ o ho
      · simpa using List.countP_eq_zero.mp hzero₂ o ho
    obtain ⟨done, cache, hfold, hcache, hops, -, -⟩ := hx₀.lines
    obtain ⟨before, lineBuf', hloc', hbefore, hbytes, heof⟩ := hops op hmem hpid
    rw [hr] at hbytes heof
    change bytes₀ = before ++ [] at hbytes
    rw [List.append_nil] at hbytes
    have heof₀ : eof₀ = false := by simpa using heof
    subst hbytes heof₀
    refine ⟨(congrFun hterm p).trans hx₀.plain, by rw [hdr]; exact hx₀.single, fun h0 => ?_, done,
      cache, hfold, (congrFun hlog p).trans hcache, fun o ho hpid' => ?_,
      fun t ht => absurd ht List.not_mem_nil, fun htrue => ?_⟩
    · rw [hdr] at h0
      rw [h0, Option.getD_some] at hbal
      omega
    · rw [hl', List.mem_append, List.mem_cons] at ho
      rcases ho with ho | rfl | ho
      · exact (hothers o (.inl ho) hpid').elim
      · exact ⟨bytes₀, lineBuf', hloc', hbefore, rfl, Bool.false_or _⟩
      · exact (hothers o (.inr ho) hpid').elim
    · have hend : r = .bytes [] := by simpa using htrue
      have hlast := hok op hop hend
      rw [hloc] at hlast
      have hrest := rest_eq_nil (hlast (bytes₀, false) hold)
      rw [hbefore] at hrest
      rw [hend, readOf, List.append_nil, hbefore]
      exact congrArg (done, ·) hrest
  · rw [not_exists] at hloc
    rw [outputOf_performed hloc] at ho
    have hx₀ := hx p bytes eof ho
    refine hx₀.congr (congrFun hterm p) (congrFun hdr p) (congrFun hlog p) ?_ fun t ht _ => ht
    intro o ho' hpid
    rw [hl', List.mem_append, List.mem_cons] at ho'
    rw [hl, List.mem_append, List.mem_cons]
    rcases ho' with ho' | rfl | ho'
    · exact .inl ho'
    · obtain ⟨done, cache, -, -, hops, -, -⟩ := hx₀.lines
      obtain ⟨before, lineBuf, hloc', -⟩ := hops op hmem hpid
      exact (hloc lineBuf hloc').elim
    · exact .inr (.inr ho')

theorem logged_invariant : Invariant .counting codec
    (fun w e => (Delivers (fun w _ _ => FreshStep w) w e ∧ Terminated w e) ∧ w.Numbered)
    fun h w => DrainBalance h w ∧ AllLogged h w where
  move hx hm := ⟨hm.drainBalance trivial hx.1, hm.allLogged trivial hx.1 hx.2⟩
  enter hx _ := ⟨hx.1, hx.2.congr rfl rfl rfl (fun _ hop _ => hop) (List.Subset.refl _) fun _ => rfl⟩
  perform hx hop hr _ hok := ⟨hx.1.perform hok.2 hop, hx.2.perform hx.1 hok.2 hop hr hok.1.2⟩
  fits _ hop hr hok := { Fits.none with fresh := fun _ => hok.1.1 _ _ hop hr }

theorem handleLogs_eq {cache : LogCache} (sender : ℕ) (hlog : w.logOf pid = some cache) :
    handleLogs sender pid w = .ok () (w.note (.replied sender (.logs cache.collectLines))) := by
  unfold World.logOf at hlog
  unfold handleLogs
  rw [get_bind_apply]
  simp only [hlog]
  rfl

/-- Once the end of a container's output has been read, a request for its log is answered with what
pushing every line of it gives. -/
def LogsComplete (w : World) : Prop :=
  ∀ pid bytes, outputOf pid w.trace = some (bytes, true) → ∃ cache,
    (linesOf bytes).foldlM LogCache.push (.new logCapacity) = some cache ∧
      ∀ sender, handleLogs sender pid w =
        .ok () (w.note (.replied sender (.logs cache.collectLines)))

theorem run_logs (hb : booted answers = some w₀) (hr : Reaches (step codec)
    (fun w e => Delivers (fun w _ _ => FreshStep w) w e ∧ Terminated w e) w₀ w) :
    LogsComplete w := by
  intro pid bytes ho
  have hx := (logged_invariant.reaches ⟨fun _ => rfl, fun _ _ _ ho => by cases ho⟩ hb hr).2
  obtain ⟨done, cache, hfold, hlog, -, -, heof⟩ := (hx pid bytes true ho).lines
  have hlines := heof rfl
  refine ⟨cache, ?_, fun sender => handleLogs_eq sender hlog⟩
  rw [linesOf_eq (by rw [hlines]), hlines]
  exact hfold

/-- A container that writes a line and ends. -/
theorem run_logs_line : ∃ w₀ w, booted quietBoot = some w₀ ∧ Reaches (step sampleCodec)
    (fun w e => Delivers (fun w _ _ => FreshStep w) w e ∧ Terminated w e) w₀ w ∧
      outputOf 100 w.trace = some ([97, 10], true) ∧ LogsComplete w := by
  obtain ⟨w₀, w, hb, hr, ht⟩ := exists_of_executes (step sampleCodec)
    (fun w e => Delivers (fun w _ _ => FreshStep w) w e ∧ Terminated w e) (booted quietBoot)
    (datagram 0 3 [1] runDetached ++ turn 4 (.bytes [97, 10]) [.submit true] ++
      turn 6 (.bytes []) [])
    (fun _ w => decide (outputOf 100 w.trace = some ([97, 10], true))) (by decide +kernel)
  exact ⟨w₀, w, hb, hr, of_decide_eq_true ht, run_logs hb hr⟩

/-- A container that writes a line without its newline: the line is not in the log. -/
theorem partial_line_lost : ∃ w₀ w, booted quietBoot = some w₀ ∧
    Reaches (step sampleCodec) (fun _ _ => True) w₀ w ∧ ¬ LogsComplete w := by
  obtain ⟨w₀, w, hb, hr, ht⟩ := exists_of_executes (step sampleCodec) (fun _ _ => True)
    (booted quietBoot)
    (datagram 0 3 [1] runDetached ++ turn 4 (.bytes [97]) [.submit true] ++
      turn 6 (.bytes []) [])
    (fun _ w => decide (outputOf 100 w.trace = some ([97], true) ∧
      (w.logOf 100).map LogCache.bytes = some 0)) (by decide +kernel)
  obtain ⟨hout, hbytes⟩ := of_decide_eq_true ht
  refine ⟨w₀, w, hb, hr, fun hx => ?_⟩
  obtain ⟨cache, hfold, hreply⟩ := hx 100 [97] hout
  obtain ⟨cache', hlog, hzero⟩ := Option.map_eq_some_iff.mp hbytes
  have hpush : ((LogCache.new logCapacity).push [97]).map (·.collectLines) = some [[97]] := by
    decide +kernel
  have hone : ∀ c : LogCache, (linesOf [97]).foldlM LogCache.push c = c.push [97] := fun c =>
    bind_pure (c.push [97])
  rw [hone] at hfold
  have hempty : cache'.collectLines = [] := by
    unfold LogCache.collectLines
    rw [hzero]
    rfl
  have hsame := (handleLogs_eq 0 hlog).symm.trans (hreply 0)
  rw [hfold, Option.map_some, Option.some.injEq] at hpush
  rw [hempty, hpush] at hsame
  have htrace := congrArg World.trace (EStateM.Result.ok.inj hsame).2
  simp at htrace

end Conrt.Daemon
