import Conrt.Container.Init

/-! The daemon and its containers: who has a copy of the write end of whose death pipe. A container that
is started inherits those that the daemon has, and a built-in init is never executed, so that it keeps
them. -/
namespace Conrt.Container

open Conrt.Base

/-- PID 1 of a container: `run_init_loop`, or a program that is executed. -/
inductive Kind
  | builtin
  | executed
deriving DecidableEq

/-- Where it is: before the daemon's signal, in `child_init_environment`, in the loop or the program, or
ended. -/
inductive Age
  | waiting
  | settling
  | serving
  | ended
deriving DecidableEq

/-- A container, by its PID 1. The word of the daemon is what it finds in the signal's pipe, or that the
daemon has given it up; `holds` names the death pipes that it has the write end of. -/
structure Member where
  kind : Kind
  age : Age
  word : Option Bool
  init : Init
  holds : List ℕ

/-- The containers in the order they have been started in, which names them; and the daemon, which may be
about to signal one, and the death pipes that it has the write end of. -/
structure Family where
  daemon : Bool
  asked : Option ℕ
  holds : List ℕ
  members : List Member

inductive Act
  | start (kind : Kind)
  | speak (ok : Bool)
  | hear (k : ℕ)
  | settle (k : ℕ) (ok : Bool)
  | init (k : ℕ) (e : Event)
  | hangUp (k : ℕ)
  | die (k : ℕ)
  | reap (k : ℕ) (closes : Bool)
  | daemonDies
deriving DecidableEq

namespace Member

/-- PID 1 ends with its loop. -/
def turn (m : Member) (i : Init) : Member :=
  { m with init := i, age := match i.phase with | .exited _ => .ended | _ => m.age }

/-- `OneshotSignal::wait`, which fails when the pipe has no byte and nobody can write one. A container with
a death pipe closes its own copy of the write end. -/
def hear (m : Member) (k : ℕ) (daemon : Bool) : Option Member :=
  if m.age = .waiting then
    match m.word with
    | some true => some { m with age := .settling, holds := m.holds.filter (· ≠ k) }
    | some false => some { m with age := .ended }
    | none => if daemon then none else some { m with age := .ended }
  else none

/-- What is executed has none of the pipes. -/
def settle (m : Member) (ok : Bool) : Option Member :=
  if m.age = .settling then
    some (if ok then { m with age := .serving, holds := if m.kind = .executed then [] else m.holds }
      else { m with age := .ended })
  else none

def loop (m : Member) (e : Event) : Option Member :=
  if m.age = .serving ∧ m.kind = .builtin then (m.init.step e).map m.turn else none

def die (m : Member) : Option Member :=
  if m.age = .ended then none else some { m with age := .ended }

end Member

namespace Family

def start : Family := ⟨true, none, [], []⟩

def writers (f : Family) (k : ℕ) : Bool :=
  (f.daemon && decide (k ∈ f.holds)) || f.members.any fun m => decide (m.age ≠ .ended ∧ k ∈ m.holds)

def alter (f : Family) (k : ℕ) (g : Member → Option Member) : Option Family := do
  let m ← f.members[k]?
  let m' ← g m
  pure { f with members := f.members.set k m' }

def clone (f : Family) (kind : Kind) : Option Family :=
  if f.daemon = true ∧ f.asked = none then
    let holds := if kind = .builtin then f.members.length :: f.holds else f.holds
    some { f with
      asked := some f.members.length
      holds := holds
      members := f.members ++ [⟨kind, .waiting, none, .start, holds⟩] }
  else none

/-- `parent_setup_maps_and_signal`. A container that is given up has its death pipe closed. -/
def speak (f : Family) (ok : Bool) : Option Family :=
  match f.asked with
  | some k =>
    { f with asked := none, holds := if ok then f.holds else f.holds.filter (· ≠ k) }.alter k
      fun m => some { m with word := some ok }
  | none => none

/-- The death pipe is closed when the container is removed by the reaper, not by its last drain. -/
def reap (f : Family) (k : ℕ) (closes : Bool) : Option Family := do
  let m ← f.members[k]?
  if f.daemon = true ∧ f.asked = none ∧ m.age = .ended then
    pure (if closes then { f with holds := f.holds.filter (· ≠ k) } else f)
  else none

/-- The death pipe hangs up when nobody has its write end. -/
def step (f : Family) : Act → Option Family
  | .start kind => f.clone kind
  | .speak ok => f.speak ok
  | .hear k => f.alter k fun m => m.hear k f.daemon
  | .settle k ok => f.alter k fun m => m.settle ok
  | .init k e => if e = .hangUp then none else f.alter k fun m => m.loop e
  | .hangUp k => if f.writers k then none else
    f.alter k fun m => if m.init.hungUp then none else m.loop .hangUp
  | .die k => f.alter k Member.die
  | .reap k closes => f.reap k closes
  | .daemonDies => if f.daemon then some { f with daemon := false, asked := none } else none

end Family

section

variable {f f' : Family} {m m' : Member} {i : Init} {j k : ℕ} {e : Event} {ok : Bool}

/-- What holds of the container `k` by itself. Once past its wait, it has the pipes of older containers
only. -/
structure Member.Fit (k : ℕ) (m : Member) : Prop where
  reached : Reaches Init.step (fun _ _ => True) .start m.init
  older : m.age ≠ .ended → ∀ j ∈ m.holds, j < k ∨ j = k ∧ m.age = .waiting
  emptied : m.kind = .executed → m.age = .serving → m.holds = []
  told : m.age = .settling ∨ m.age = .serving → m.word = some true
  fresh : m.age = .waiting ∨ m.age = .settling → m.init = .start
  lives : m.age = .serving → ∀ code, m.init.phase ≠ .exited code

/-- It is of those that keep what they have inherited. -/
def Member.keeps (m : Member) : Prop := m.age ≠ .ended ∧ (m.kind = .builtin ∨ m.age ≠ .serving)

/-- How the container `k` changes. It gives nothing back but its own pipe, or all. -/
structure Member.Grows (k : ℕ) (m m' : Member) : Prop where
  kind : m'.kind = m.kind
  word : m'.word = m.word
  holds : m'.holds ⊆ m.holds
  age : m'.age ≠ .ended → m.age ≠ .ended
  keeps : m'.keeps → m.keeps ∧ ∀ j ∈ m.holds, j ≠ k → j ∈ m'.holds

namespace Member

theorem turn_eq : m.turn i = { m with init := i } ∧ (∀ code, i.phase ≠ .exited code) ∨
    m.turn i = { m with init := i, age := .ended } := by
  cases hp : i.phase with
  | exited code => exact .inr (by simp [turn, hp])
  | _ => exact .inl ⟨by simp [turn, hp], by simp⟩

theorem Grows.end : Grows k m { m with init := i, age := .ended } where
  kind := rfl
  word := rfl
  holds := List.Subset.refl _
  age h := absurd rfl h
  keeps h := absurd rfl h.1

theorem Fit.end (h : Reaches Init.step (fun _ _ => True) .start i) :
    Fit k { m with init := i, age := .ended } where
  reached := h
  older h := absurd rfl h
  emptied _ h := by cases h
  told h := by rcases h with h | h <;> cases h
  fresh h := by rcases h with h | h <;> cases h
  lives h := by cases h

theorem turn_spec (h : m.Fit k) (ha : m.age = .serving) (hs : m.init.step e = some i) :
    (m.turn i).Fit k ∧ Grows k m (m.turn i) := by
  have hreached := h.reached.next trivial hs
  rcases turn_eq (m := m) (i := i) with ⟨heq, hlives⟩ | heq
  · rw [heq]
    refine ⟨⟨hreached, h.older, h.emptied, h.told, fun hearly => ?_, fun _ => hlives⟩,
      ⟨rfl, rfl, List.Subset.refl _, id, fun hk => ⟨hk, fun _ hj _ => hj⟩⟩⟩
    have hno : m.age = .waiting ∨ m.age = .settling := hearly
    simp [ha] at hno
  · rw [heq]
    exact ⟨.end hreached, .end⟩

theorem hear_spec (h : m.Fit k) {daemon : Bool} (hs : m.hear k daemon = some m') :
    m'.Fit k ∧ Grows k m m' ∧ m'.init = m.init := by
  simp only [hear] at hs
  split at hs
  case isFalse => cases hs
  rename_i ha
  split at hs
  · rename_i hw
    obtain rfl := Option.some.inj hs
    refine ⟨⟨h.reached, fun _ j hj => ?_, fun _ hno => (by cases hno), fun _ => hw,
      fun _ => h.fresh (.inl ha), fun hno => (by cases hno)⟩,
      ⟨rfl, rfl, List.filter_sublist.subset, fun _ => by simp [ha], fun _ => ?_⟩, rfl⟩
    · obtain ⟨hj, hne⟩ := List.mem_filter.mp hj
      rcases h.older (by simp [ha]) j hj with hlt | ⟨heq, -⟩
      · exact .inl hlt
      · simp [heq] at hne
    · exact ⟨⟨by simp [ha], by simp [ha]⟩, fun j hj hne => List.mem_filter.mpr ⟨hj, by simpa using hne⟩⟩
  · obtain rfl := Option.some.inj hs
    exact ⟨Fit.end h.reached, .end, rfl⟩
  · split_ifs at hs
    obtain rfl := Option.some.inj hs
    exact ⟨Fit.end h.reached, .end, rfl⟩

theorem settle_spec (h : m.Fit k) (hs : m.settle ok = some m') :
    m'.Fit k ∧ Grows k m m' ∧ m'.init = m.init := by
  simp only [settle] at hs
  split at hs
  case isFalse => cases hs
  rename_i ha
  cases ok with
  | false =>
    obtain rfl := Option.some.inj hs
    exact ⟨Fit.end h.reached, .end, rfl⟩
  | true =>
    obtain rfl := Option.some.inj hs
    have hsub : (if m.kind = .executed then [] else m.holds) ⊆ m.holds := by
      split_ifs
      · exact List.nil_subset _
      · exact List.Subset.refl _
    refine ⟨⟨h.reached, fun _ j hj => ?_, fun hk _ => if_pos hk, fun _ => h.told (.inl ha), ?_, ?_⟩,
      ⟨rfl, rfl, hsub, fun _ => by simp [ha],
        fun hk => ⟨⟨by simp [ha], by simp [ha]⟩, fun j hj _ => ?_⟩⟩, rfl⟩
    · rcases h.older (by simp [ha]) j (hsub hj) with hlt | ⟨-, hno⟩
      · exact .inl hlt
      · simp [ha] at hno
    · rintro (hno | hno) <;> cases hno
    · intro _ code
      simp [h.fresh (.inr ha), Init.start]
    · have hbuiltin : m.kind = .builtin := hk.2.resolve_right fun hno => hno rfl
      change j ∈ if m.kind = .executed then [] else m.holds
      rwa [if_neg (by simp [hbuiltin])]

theorem loop_spec (h : m.Fit k) (hs : m.loop e = some m') :
    m'.Fit k ∧ Grows k m m' ∧ m.init.step e = some m'.init := by
  simp only [loop] at hs
  split_ifs at hs with ha
  obtain ⟨i, hi, rfl⟩ := Option.map_eq_some_iff.mp hs
  obtain ⟨hfit, hgrows⟩ := turn_spec h ha.1 hi
  exact ⟨hfit, hgrows, hi⟩

theorem loop_serving (hs : m.loop e = some m') : m.age = .serving ∧ m.kind = .builtin := by
  simp only [loop] at hs
  split_ifs at hs with ha
  exact ha

theorem die_spec (h : m.Fit k) (hs : m.die = some m') : m'.Fit k ∧ Grows k m m' ∧ m'.init = m.init := by
  simp only [die] at hs
  split_ifs at hs with ha
  obtain rfl := Option.some.inj hs
  exact ⟨Fit.end h.reached, .end, rfl⟩

end Member

/-- What holds of them together. While a container lives the daemon has its death pipe, and so have the
younger ones that keep what they have inherited; the pipe of a container that has been hung up on has no
writer. -/
structure Sound (f : Family) : Prop where
  bound : ∀ k ∈ f.holds, k < f.members.length
  fit : ∀ (k : ℕ) (m : Member), f.members[k]? = some m → m.Fit k
  asked : ∀ k, f.asked = some k → f.daemon = true ∧ k + 1 = f.members.length
  unasked : ∀ (k : ℕ) (m : Member), f.members[k]? = some m → f.asked = some k → m.word = none
  answered : ∀ (k : ℕ) (m : Member), f.members[k]? = some m → f.daemon = true → m.word = none →
    f.asked = some k
  kept : ∀ (k : ℕ) (m : Member), f.members[k]? = some m → f.daemon = true → m.age ≠ .ended →
    m.kind = .builtin → m.word ≠ some false → k ∈ f.holds
  heirs : ∀ (k : ℕ) (m : Member), f.members[k]? = some m → m.age ≠ .ended → m.kind = .builtin →
    m.word = some true → ∀ (j : ℕ) (m' : Member), f.members[j]? = some m' → k < j → m'.keeps → k ∈ m'.holds
  hung : ∀ (k : ℕ) (m : Member), f.members[k]? = some m → m.init.hungUp = true →
    f.daemon = false ∧ ∀ (j : ℕ) (m' : Member), f.members[j]? = some m' → m'.age ≠ .ended → k ∉ m'.holds

theorem getElem?_concat {l : List Member} (h : (l ++ [m])[j]? = some m') :
    j = l.length ∧ m' = m ∨ j < l.length ∧ l[j]? = some m' := by
  rcases Nat.lt_trichotomy j l.length with hlt | heq | hgt
  · rw [List.getElem?_append_left hlt] at h
    exact .inr ⟨hlt, h⟩
  · rw [heq, List.getElem?_concat_length] at h
    exact .inl ⟨heq, (Option.some.inj h).symm⟩
  · rw [List.getElem?_eq_none (by simpa using hgt)] at h
    cases h

theorem getElem?_set {l : List Member} (h : (l.set k m)[j]? = some m') :
    j = k ∧ m' = m ∨ j ≠ k ∧ l[j]? = some m' := by
  rw [List.getElem?_set] at h
  split_ifs at h with heq hlt
  · exact .inl ⟨heq.symm, (Option.some.inj h).symm⟩
  · exact .inr ⟨Ne.symm heq, h⟩

theorem alter_some {g : Member → Option Member} (hs : f.alter k g = some f') :
    ∃ m m', f.members[k]? = some m ∧ g m = some m' ∧ f' = { f with members := f.members.set k m' } := by
  simp only [Family.alter, Option.bind_eq_bind, Option.bind_eq_some_iff, Option.pure_def,
    Option.some.injEq] at hs
  obtain ⟨m, hm, m', hm', rfl⟩ := hs
  exact ⟨m, m', hm, hm', rfl⟩

theorem alter_isSome {g : Member → Option Member} (hm : f.members[k]? = some m) (hg : (g m).isSome = true) :
    (f.alter k g).isSome = true := by
  obtain ⟨m', hm'⟩ := Option.isSome_iff_exists.mp hg
  simp [Family.alter, hm, hm']

theorem writers_eq_false : f.writers k = false ↔ (f.daemon = true → k ∉ f.holds) ∧
    ∀ (j : ℕ) (x : Member), f.members[j]? = some x → x.age ≠ .ended → k ∉ x.holds := by
  simp only [Family.writers, Bool.or_eq_false_iff, Bool.and_eq_false_imp, decide_eq_false_iff_not,
    List.any_eq_false, decide_eq_true_eq, not_and]
  refine and_congr_right fun _ => ⟨fun h j x hx => h x (List.mem_of_getElem? hx), fun h x hx => ?_⟩
  obtain ⟨j, hj⟩ := List.getElem?_of_mem hx
  exact h j x hj

theorem step_hungUp {i' : Init} (hs : Took i e i') (he : e ≠ .hangUp) : i'.hungUp = i.hungUp := by
  cases hs with
  | hangUp => exact absurd rfl he
  | _ => rfl

namespace Sound

theorem start : Sound .start where
  bound k hk := by simp [Family.start] at hk
  fit k m hm := by simp [Family.start] at hm
  asked k hk := by cases hk
  unasked k m hm := by simp [Family.start] at hm
  answered k m hm := by simp [Family.start] at hm
  kept k m hm := by simp [Family.start] at hm
  heirs k m hm := by simp [Family.start] at hm
  hung k m hm := by simp [Family.start] at hm

/-- One container changes; if it is hung up on, its pipe has no writer. -/
theorem alter (h : Sound f) (hk : f.members[k]? = some m) (hfit : m'.Fit k) (hg : Member.Grows k m m')
    (hh : m'.init.hungUp = true → m.init.hungUp = true ∨ f.daemon = false ∧
      ∀ (j : ℕ) (x : Member), f.members[j]? = some x → x.age ≠ .ended → k ∉ x.holds) :
    Sound { f with members := f.members.set k m' } where
  bound j hj := by
    change j < (f.members.set k m').length
    rw [List.length_set]
    exact h.bound j hj
  fit j x hx := by
    rcases getElem?_set hx with ⟨rfl, rfl⟩ | ⟨-, hx⟩
    · exact hfit
    · exact h.fit j x hx
  asked j hj := by
    change f.daemon = true ∧ j + 1 = (f.members.set k m').length
    rw [List.length_set]
    exact h.asked j hj
  unasked j x hx := by
    rcases getElem?_set hx with ⟨rfl, rfl⟩ | ⟨-, hx⟩
    · rw [hg.word]
      exact h.unasked j m hk
    · exact h.unasked j x hx
  answered j x hx := by
    rcases getElem?_set hx with ⟨rfl, rfl⟩ | ⟨-, hx⟩
    · rw [hg.word]
      exact h.answered j m hk
    · exact h.answered j x hx
  kept j x hx hd hage := by
    rcases getElem?_set hx with ⟨rfl, rfl⟩ | ⟨-, hx⟩
    · rw [hg.word, hg.kind]
      exact h.kept j m hk hd (hg.age hage)
    · exact h.kept j x hx hd hage
  heirs j x hx hage hkind hword i y hy hlt hkeeps := by
    have hold : ∃ x₀ : Member, f.members[j]? = some x₀ ∧ x₀.age ≠ .ended ∧ x₀.kind = .builtin ∧
        x₀.word = some true := by
      rcases getElem?_set hx with ⟨rfl, rfl⟩ | ⟨-, hx⟩
      · exact ⟨m, hk, hg.age hage, hg.kind ▸ hkind, hg.word ▸ hword⟩
      · exact ⟨x, hx, hage, hkind, hword⟩
    obtain ⟨x₀, hx₀, hage₀, hkind₀, hword₀⟩ := hold
    rcases getElem?_set hy with ⟨rfl, rfl⟩ | ⟨-, hy⟩
    · obtain ⟨hkeeps₀, hall⟩ := hg.keeps hkeeps
      exact hall j (h.heirs j x₀ hx₀ hage₀ hkind₀ hword₀ i m hk hlt hkeeps₀) (Nat.ne_of_lt hlt)
    · exact h.heirs j x₀ hx₀ hage₀ hkind₀ hword₀ i y hy hlt hkeeps
  hung j x hx hup := by
    have hold : f.daemon = false ∧
        ∀ (i : ℕ) (y : Member), f.members[i]? = some y → y.age ≠ .ended → j ∉ y.holds := by
      rcases getElem?_set hx with ⟨rfl, rfl⟩ | ⟨-, hx⟩
      · exact (hh hup).elim (h.hung j m hk) id
      · exact h.hung j x hx hup
    refine ⟨hold.1, fun i y hy hage hmem => ?_⟩
    rcases getElem?_set hy with ⟨rfl, rfl⟩ | ⟨-, hy⟩
    · exact hold.2 i m hk (hg.age hage) (hg.holds hmem)
    · exact hold.2 i y hy hage hmem

theorem alter_same (h : Sound f) {g : Member → Option Member}
    (hg : ∀ m m', m.Fit k → g m = some m' → m'.Fit k ∧ Member.Grows k m m' ∧ m'.init = m.init)
    (hs : f.alter k g = some f') : Sound f' := by
  obtain ⟨m, m', hm, hm', rfl⟩ := alter_some hs
  obtain ⟨hfit, hgrows, hinit⟩ := hg m m' (h.fit k m hm) hm'
  exact h.alter hm hfit hgrows fun hup => .inl (hinit ▸ hup)

/-- A built-in init takes a step. -/
theorem loop (h : Sound f) (he : e ≠ .hangUp) (hs : f.alter k (fun m => m.loop e) = some f') : Sound f' := by
  obtain ⟨m, m', hm, hm', rfl⟩ := alter_some hs
  obtain ⟨hfit, hgrows, hinit⟩ := Member.loop_spec (h.fit k m hm) hm'
  exact h.alter hm hfit hgrows fun hup => .inl (step_hungUp (step_took hinit) he ▸ hup)

theorem hangUp (h : Sound f) (hw : f.writers k = false)
    (hs : f.alter k (fun m => if m.init.hungUp then none else m.loop .hangUp) = some f') : Sound f' := by
  obtain ⟨m, m', hm, hm', rfl⟩ := alter_some hs
  split_ifs at hm'
  have hfit₀ := h.fit k m hm
  obtain ⟨hfit, hgrows, -⟩ := Member.loop_spec hfit₀ hm'
  obtain ⟨hserving, hbuiltin⟩ := Member.loop_serving hm'
  obtain ⟨hholds, hnone⟩ := writers_eq_false.mp hw
  refine h.alter hm hfit hgrows fun _ => .inr ⟨?_, hnone⟩
  cases hd : f.daemon with
  | false => rfl
  | true =>
    have hword := hfit₀.told (.inr hserving)
    exact absurd (h.kept k m hm hd (by simp [hserving]) hbuiltin (by simp [hword])) (hholds hd)

/-- What is started inherits the pipes of every container that lives. -/
theorem clone {kind : Kind} (h : Sound f) (hs : f.clone kind = some f') : Sound f' := by
  simp only [Family.clone] at hs
  split at hs
  case isFalse => cases hs
  rename_i hok
  obtain rfl := Option.some.inj hs
  have hsub : ∀ {j}, j ∈ f.holds → j ∈ if kind = .builtin then f.members.length :: f.holds else f.holds := by
    intro j hj
    split_ifs
    · exact List.mem_cons_of_mem _ hj
    · exact hj
  have hbound : ∀ j ∈ if kind = .builtin then f.members.length :: f.holds else f.holds,
      j < f.members.length ∨ j = f.members.length := by
    intro j hj
    split_ifs at hj
    · exact (List.mem_cons.mp hj).symm.imp_left (h.bound j)
    · exact .inl (h.bound j hj)
  constructor
  · intro j hj
    have hlt := hbound j hj
    simp only [List.length_append, List.length_singleton]
    omega
  · intro j x hx
    rcases getElem?_concat hx with ⟨rfl, rfl⟩ | ⟨-, hx⟩
    · exact ⟨.start, fun _ i hi => (hbound i hi).imp_right fun heq => ⟨heq, rfl⟩, fun _ hno => (by cases hno),
        (by rintro (hno | hno) <;> cases hno), fun _ => rfl, fun hno => (by cases hno)⟩
    · exact h.fit j x hx
  · rintro j hj
    obtain rfl := Option.some.inj hj
    exact ⟨hok.1, by simp⟩
  · intro j x hx hj
    obtain rfl := Option.some.inj hj
    rcases getElem?_concat hx with ⟨-, rfl⟩ | ⟨hno, -⟩
    · rfl
    · exact absurd hno (Nat.lt_irrefl _)
  · intro j x hx hd hw
    rcases getElem?_concat hx with ⟨rfl, -⟩ | ⟨-, hx⟩
    · rfl
    · have hasked := h.answered j x hx hd hw
      rw [hok.2] at hasked
      cases hasked
  · intro j x hx hd hage hkind hw
    rcases getElem?_concat hx with ⟨rfl, rfl⟩ | ⟨-, hx⟩
    · obtain rfl : kind = .builtin := hkind
      exact List.mem_cons_self
    · exact hsub (h.kept j x hx hd hage hkind hw)
  · intro j x hx hage hkind hw i y hy hlt hkeeps
    rcases getElem?_concat hx with ⟨-, rfl⟩ | ⟨-, hx⟩
    · cases hw
    · rcases getElem?_concat hy with ⟨-, rfl⟩ | ⟨-, hy⟩
      · exact hsub (h.kept j x hx hok.1 hage hkind (by simp [hw]))
      · exact h.heirs j x hx hage hkind hw i y hy hlt hkeeps
  · intro j x hx hup
    rcases getElem?_concat hx with ⟨-, rfl⟩ | ⟨-, hx⟩
    · cases hup
    · have hdead := (h.hung j x hx hup).1
      rw [hok.1] at hdead
      cases hdead

theorem speak (h : Sound f) (hs : f.speak ok = some f') : Sound f' := by
  simp only [Family.speak] at hs
  split at hs
  case h_2 => cases hs
  rename_i k hasked
  simp only [Family.alter, Option.bind_eq_bind, Option.bind_eq_some_iff, Option.pure_def,
    Option.some.injEq, exists_eq_left'] at hs
  obtain ⟨m, hm, rfl⟩ := hs
  obtain ⟨hd, hlast⟩ := h.asked k hasked
  have hnone := h.unasked k m hm hasked
  have hsub : (if ok then f.holds else f.holds.filter (· ≠ k)) ⊆ f.holds := by
    split_ifs
    · exact List.Subset.refl _
    · exact List.filter_sublist.subset
  have hother : ∀ {j}, j ∈ f.holds → j ≠ k → j ∈ if ok then f.holds else f.holds.filter (· ≠ k) := by
    intro j hj hne
    split_ifs
    · exact hj
    · exact List.mem_filter.mpr ⟨hj, by simpa using hne⟩
  have hfit := h.fit k m hm
  constructor
  · intro j hj
    simp only [List.length_set]
    exact h.bound j (hsub hj)
  · intro j x hx
    rcases getElem?_set hx with ⟨rfl, rfl⟩ | ⟨-, hx⟩
    · refine ⟨hfit.reached, hfit.older, hfit.emptied, fun hage => ?_, hfit.fresh, hfit.lives⟩
      rw [hfit.told hage] at hnone
      cases hnone
    · exact h.fit j x hx
  · intro j hj
    cases hj
  · intro j x _ hj
    cases hj
  · intro j x hx hd hw
    rcases getElem?_set hx with ⟨-, rfl⟩ | ⟨hne, hx⟩
    · cases hw
    · have hagain := h.answered j x hx hd hw
      rw [hasked] at hagain
      exact absurd (Option.some.inj hagain).symm hne
  · intro j x hx hd hage hkind hw
    rcases getElem?_set hx with ⟨rfl, rfl⟩ | ⟨hne, hx⟩
    · obtain rfl : ok = true := by simpa using hw
      exact h.kept j m hm hd hage hkind (by simp [hnone])
    · exact hother (h.kept j x hx hd hage hkind hw) hne
  · intro j x hx hage hkind hw i y hy hlt hkeeps
    have hlen : i < f.members.length := by
      have hi := (List.getElem?_eq_some_iff.mp hy).1
      simpa using hi
    rcases getElem?_set hx with ⟨rfl, -⟩ | ⟨-, hold⟩
    · omega
    · rcases getElem?_set hy with ⟨rfl, rfl⟩ | ⟨-, hy⟩
      · exact h.heirs j x hold hage hkind hw i m hm hlt hkeeps
      · exact h.heirs j x hold hage hkind hw i y hy hlt hkeeps
  · intro j x hx hup
    have hdead : f.daemon = false := by
      rcases getElem?_set hx with ⟨rfl, rfl⟩ | ⟨-, hx⟩
      · exact (h.hung j m hm hup).1
      · exact (h.hung j x hx hup).1
    rw [hd] at hdead
    cases hdead

theorem reap {closes : Bool} (h : Sound f) (hs : f.reap k closes = some f') : Sound f' := by
  simp only [Family.reap, Option.bind_eq_bind, Option.bind_eq_some_iff] at hs
  obtain ⟨m, hm, hs⟩ := hs
  split at hs
  case isFalse => cases hs
  rename_i hok
  obtain rfl := Option.some.inj hs
  split_ifs
  · exact { h with
      bound := fun j hj => h.bound j (List.mem_filter.mp hj).1
      kept := fun j x hx hd hage hkind hw => by
        refine List.mem_filter.mpr ⟨h.kept j x hx hd hage hkind hw, decide_eq_true ?_⟩
        rintro rfl
        obtain rfl := Option.some.inj (hm.symm.trans hx)
        exact hage hok.2.2 }
  · exact h

theorem daemonDies (h : Sound f) : Sound { f with daemon := false, asked := none } where
  bound := h.bound
  fit := h.fit
  asked _ hk := by cases hk
  unasked _ _ _ hk := by cases hk
  answered _ _ _ hd := by cases hd
  kept _ _ _ hd := by cases hd
  heirs := h.heirs
  hung k m hm hup := ⟨rfl, (h.hung k m hm hup).2⟩

theorem step {a : Act} (h : Sound f) (hs : f.step a = some f') : Sound f' := by
  cases a with
  | start kind => exact h.clone hs
  | speak ok => exact h.speak hs
  | hear k => exact h.alter_same (fun _ _ hm hg => Member.hear_spec hm hg) hs
  | settle k ok => exact h.alter_same (fun _ _ hm hg => Member.settle_spec hm hg) hs
  | init k e =>
    simp only [Family.step] at hs
    split_ifs at hs with he
    exact h.loop he hs
  | hangUp k =>
    simp only [Family.step] at hs
    split at hs
    case isTrue => cases hs
    rename_i hw
    exact h.hangUp (by simpa using hw) hs
  | die k => exact h.alter_same (fun _ _ hm hg => Member.die_spec hm hg) hs
  | reap k closes => exact h.reap hs
  | daemonDies =>
    simp only [Family.step] at hs
    split_ifs at hs
    obtain rfl := Option.some.inj hs
    exact h.daemonDies

theorem of_reaches (h : Reaches Family.step (fun _ _ => True) .start f) : Sound f :=
  h.invariant .start fun _ _ _ hf _ hst => hf.step hst

/-- The writers of the death pipe of a built-in init in its loop. -/
theorem writers_iff (h : Sound f) (hm : f.members[k]? = some m) (hs : m.age = .serving)
    (hb : m.kind = .builtin) : f.writers k = true ↔
      f.daemon = true ∨ ∃ (j : ℕ) (x : Member), k < j ∧ f.members[j]? = some x ∧ x.keeps := by
  have hword := (h.fit k m hm).told (.inr hs)
  constructor
  · intro hw
    by_contra hno
    push Not at hno
    obtain ⟨hd, hnone⟩ := hno
    have hfalse : f.writers k = false := by
      refine writers_eq_false.mpr ⟨fun hd' => absurd hd' hd, fun j x hx hage hmem => ?_⟩
      have hfit := h.fit j x hx
      rcases hfit.older hage k hmem with hlt | ⟨rfl, hwaiting⟩
      · refine hnone j x hlt hx ⟨hage, ?_⟩
        by_contra hexec
        push Not at hexec
        have hkind : x.kind = .executed := by
          cases hk : x.kind with
          | builtin => exact absurd hk hexec.1
          | executed => rfl
        rw [hfit.emptied hkind hexec.2] at hmem
        simp at hmem
      · obtain rfl := Option.some.inj (hm.symm.trans hx)
        rw [hs] at hwaiting
        cases hwaiting
    rw [hfalse] at hw
    cases hw
  · intro hany
    by_contra hw
    obtain ⟨hholds, hnone⟩ := writers_eq_false.mp (by simpa using hw)
    rcases hany with hd | ⟨j, x, hlt, hx, hkeeps⟩
    · exact hholds hd (h.kept k m hm hd (by simp [hs]) hb (by simp [hword]))
    · exact hnone j x hx hkeeps.1 (h.heirs k m hm (by simp [hs]) hb hword j x hx hlt hkeeps)

end Sound

/-- A call that counts, and what the kernel does when a pipe hangs up. -/
def Act.cost : Act → ℕ
  | .hear _ | .settle _ _ | .hangUp _ => 1
  | .init _ e => e.cost
  | _ => 0

def Act.credit : Act → ℕ
  | .init _ e => e.credit
  | _ => 0

/-- It does not fail. -/
def Act.returns : Act → Bool
  | .hear _ | .settle _ true | .hangUp _ => true
  | .init _ e => e.returns
  | _ => false

def Member.weight (m : Member) : ℕ :=
  match m.age with
  | .waiting => m.init.weight + 3
  | .settling => m.init.weight + 2
  | .serving => match m.kind with
    | .builtin => m.init.weight + if m.init.hungUp then 0 else 1
    | .executed => 0
  | .ended => 0

def Family.weight (f : Family) : ℕ := (f.members.map Member.weight).sum

namespace Member

theorem weight_le : m.weight ≤ 19 := by
  have hle : m.init.weight ≤ 16 := Container.weight_le
  simp only [weight]
  repeat' split
  all_goals omega

theorem weight_ended : weight { m with age := .ended } = 0 := rfl

theorem weight_serving (ha : m.age = .serving) (hb : m.kind = .builtin) :
    m.weight = m.init.weight + if m.init.hungUp then 0 else 1 := by
  simp only [weight, ha, hb]

private theorem weight_serving_le (ha : m.age = .serving) : m.weight ≤ m.init.weight + 1 := by
  simp only [weight, ha]
  split
  · split_ifs <;> omega
  · omega

/-- After a step of its loop. -/
theorem turn_weight (ha : m.age = .serving) (hb : m.kind = .builtin) :
    (m.turn i).weight ≤ i.weight + if i.hungUp then 0 else 1 := by
  rcases turn_eq (m := m) (i := i) with ⟨heq, -⟩ | heq
  · rw [heq]
    exact (weight_serving (m := { m with init := i }) ha hb).le
  · rw [heq]
    exact Nat.zero_le _

theorem hear_weight {daemon : Bool} (hs : m.hear k daemon = some m') : 1 + m'.weight ≤ m.weight := by
  simp only [hear] at hs
  split at hs
  case isFalse => cases hs
  rename_i ha
  have hw : m.weight = m.init.weight + 3 := by simp [weight, ha]
  split at hs
  · obtain rfl := Option.some.inj hs
    change 1 + (m.init.weight + 2) ≤ m.weight
    omega
  · obtain rfl := Option.some.inj hs
    rw [weight_ended]
    omega
  · split at hs
    case isTrue => cases hs
    obtain rfl := Option.some.inj hs
    rw [weight_ended]
    omega

theorem settle_weight (hs : m.settle ok = some m') : 1 + m'.weight ≤ m.weight := by
  simp only [settle] at hs
  split at hs
  case isFalse => cases hs
  rename_i ha
  have hw : m.weight = m.init.weight + 2 := by simp [weight, ha]
  cases ok with
  | false =>
    obtain rfl := Option.some.inj hs
    change 1 + 0 ≤ m.weight
    omega
  | true =>
    obtain rfl := Option.some.inj hs
    have hle : weight { m with age := .serving, holds := if m.kind = .executed then [] else m.holds } ≤
        m.init.weight + 1 := weight_serving_le rfl
    change 1 + weight { m with age := .serving, holds := if m.kind = .executed then [] else m.holds } ≤ _
    omega

theorem loop_weight (h : m.Fit k) (he : e ≠ .hangUp) (hs : m.loop e = some m') :
    e.cost + m'.weight ≤ m.weight + e.credit := by
  obtain ⟨ha, hb⟩ := loop_serving hs
  simp only [loop, if_pos (And.intro ha hb)] at hs
  obtain ⟨i, hi, rfl⟩ := Option.map_eq_some_iff.mp hs
  have hpaid := (stage_of_reaches h.reached).step_weight (step_took hi)
  have hturn : (m.turn i).weight ≤ i.weight + if i.hungUp then 0 else 1 := turn_weight ha hb
  rw [step_hungUp (step_took hi) he] at hturn
  rw [weight_serving ha hb]
  omega

theorem hangUp_weight (hno : m.init.hungUp = false) (hs : m.loop .hangUp = some m') :
    1 + m'.weight ≤ m.weight := by
  obtain ⟨ha, hb⟩ := loop_serving hs
  simp only [loop, if_pos (And.intro ha hb)] at hs
  obtain ⟨i, hi, rfl⟩ := Option.map_eq_some_iff.mp hs
  obtain rfl := Option.some.inj hi
  have hturn : (m.turn { m.init with hungUp := true }).weight ≤ m.init.weight + 0 := turn_weight ha hb
  rw [weight_serving ha hb, hno]
  change 1 + (m.turn { m.init with hungUp := true }).weight ≤ m.init.weight + 1
  omega

theorem die_weight (hs : m.die = some m') : m'.weight ≤ m.weight := by
  simp only [die] at hs
  split_ifs at hs
  obtain rfl := Option.some.inj hs
  exact Nat.zero_le _

end Member

private theorem weight_le_length : f.weight ≤ 19 * f.members.length := by
  have hle : (f.members.map Member.weight).sum ≤ (f.members.map Member.weight).length • 19 :=
    List.sum_le_card_nsmul _ _ fun w hw => by
      obtain ⟨m, -, rfl⟩ := List.mem_map.mp hw
      exact Member.weight_le
  simpa [Family.weight, Nat.mul_comm] using hle

theorem alter_weight {g : Member → Option Member} {c r : ℕ} (hs : f.alter k g = some f')
    (hg : ∀ m m', f.members[k]? = some m → g m = some m' → c + m'.weight ≤ m.weight + r) :
    c + f'.weight ≤ f.weight + r := by
  obtain ⟨m, m', hm, hm', rfl⟩ := alter_some hs
  have hsum : ((f.members.set k m').map Member.weight).sum + m.weight =
      (f.members.map Member.weight).sum + m'.weight := sum_map_set hm
  have hpaid := hg m m' hm hm'
  change c + ((f.members.set k m').map Member.weight).sum ≤ (f.members.map Member.weight).sum + r
  omega

/-- After the daemon's death every step is paid for. -/
theorem Sound.step_weight {a : Act} (h : Sound f) (hd : f.daemon = false) (hs : f.step a = some f') :
    f'.daemon = false ∧ a.cost + f'.weight ≤ f.weight + a.credit := by
  have hasked : f.asked = none := by
    cases hk : f.asked with
    | none => rfl
    | some k => rw [(h.asked k hk).1] at hd; cases hd
  have hdead : ∀ {k} {g : Member → Option Member}, f.alter k g = some f' → f'.daemon = false := by
    intro k g halter
    obtain ⟨m, m', -, -, rfl⟩ := alter_some halter
    exact hd
  cases a with
  | start kind => simp [Family.step, Family.clone, hd] at hs
  | speak ok => simp [Family.step, Family.speak, hasked] at hs
  | hear k => exact ⟨hdead hs, alter_weight hs fun _ _ _ hg => Member.hear_weight hg⟩
  | settle k ok => exact ⟨hdead hs, alter_weight hs fun _ _ _ hg => Member.settle_weight hg⟩
  | init k e =>
    simp only [Family.step] at hs
    split_ifs at hs with he
    exact ⟨hdead hs, alter_weight hs fun m _ hm hg => Member.loop_weight (h.fit k m hm) he hg⟩
  | hangUp k =>
    simp only [Family.step] at hs
    split at hs
    case isTrue => cases hs
    refine ⟨hdead hs, alter_weight hs fun m _ _ hg => ?_⟩
    split at hg
    case isTrue => cases hg
    rename_i hno
    exact Member.hangUp_weight (by simpa using hno) hg
  | die k =>
    refine ⟨hdead hs, alter_weight hs fun _ _ _ hg => ?_⟩
    simpa [Act.cost, Act.credit] using Member.die_weight hg
  | reap k closes => simp [Family.step, Family.reap, hd] at hs
  | daemonDies => simp [Family.step, hd] at hs

private theorem keeps_of (hage : m.age ≠ .ended) (hno : ¬ (m.kind = .executed ∧ m.age = .serving)) : m.keeps := by
  refine ⟨hage, ?_⟩
  cases hk : m.kind with
  | builtin => exact .inl rfl
  | executed => exact .inr fun hserving => hno ⟨hk, hserving⟩

/-- The youngest that is left can take a step, if it is not a program that has been executed. -/
theorem Sound.youngest (h : Sound f) (hd : f.daemon = false) (hm : f.members[k]? = some m) (hk : m.keeps)
    (hlast : ∀ (j : ℕ) (x : Member), k < j → f.members[j]? = some x → ¬ x.keeps) :
    ∃ a : Act, a.returns = true ∧ (f.step a).isSome = true := by
  cases ha : m.age with
  | ended => exact absurd ha hk.1
  | waiting =>
    refine ⟨.hear k, rfl, alter_isSome hm ?_⟩
    simp only [Member.hear, ha, hd, if_true, Bool.false_eq_true, if_false]
    split <;> rfl
  | settling => exact ⟨.settle k true, rfl, alter_isSome hm (by simp [Member.settle, ha])⟩
  | serving =>
    have hb : m.kind = .builtin := hk.2.resolve_right fun hno => hno ha
    cases hup : m.init.hungUp with
    | false =>
      have hw : f.writers k = false := by
        by_contra hw
        rcases (h.writers_iff hm ha hb).mp (by simpa using hw) with hd' | ⟨j, x, hlt, hx, hkeeps⟩
        · rw [hd] at hd'
          cases hd'
        · exact hlast j x hlt hx hkeeps
      refine ⟨.hangUp k, rfl, ?_⟩
      simp only [Family.step, hw, Bool.false_eq_true, if_false]
      exact alter_isSome hm (by simp [hup, Member.loop, ha, hb, Init.step])
    | true =>
      have hfit := h.fit k m hm
      rcases (stage_of_reaches hfit.reached).returns (.inr hup) with ⟨code, hcode⟩ | ⟨e, hret, hsome⟩
      · exact absurd hcode (hfit.lives ha code)
      · have he : e ≠ .hangUp := by
          rintro rfl
          cases hret
        refine ⟨.init k e, hret, ?_⟩
        simp only [Family.step, if_neg he]
        exact alter_isSome hm (by simpa [Member.loop, ha, hb] using hsome)

/-- When nobody can take a step, only executed programs are left. -/
theorem Sound.stuck (h : Sound f) (hd : f.daemon = false)
    (hstuck : ∀ a : Act, a.returns = true → f.step a = none) (hm : f.members[k]? = some m) : ¬ m.keeps := by
  intro hk
  obtain ⟨k, ⟨m, hm, hk⟩, hlast⟩ : ∃ k : ℕ,
      (∃ m : Member, f.members[k]? = some m ∧ m.keeps) ∧
      ∀ j : ℕ, k < j → ¬ ∃ x : Member, f.members[j]? = some x ∧ x.keeps := by
    by_contra hno
    push Not at hno
    -- each one that keeps has a younger one that does, so that some are beyond the end of the list
    have hbeyond : ∀ n : ℕ, ∃ j : ℕ, n ≤ j ∧ ∃ x : Member, f.members[j]? = some x ∧ x.keeps := by
      intro n
      induction n with
      | zero => exact ⟨k, Nat.zero_le _, m, hm, hk⟩
      | succ n ih =>
        obtain ⟨j, hle, x, hx, hkeeps⟩ := ih
        obtain ⟨i, hlt, y, hy, hkeeps'⟩ := hno j ⟨x, hx, hkeeps⟩
        exact ⟨i, by omega, y, hy, hkeeps'⟩
    obtain ⟨j, hle, x, hx, -⟩ := hbeyond f.members.length
    rw [List.getElem?_eq_none hle] at hx
    cases hx
  obtain ⟨a, hret, hsome⟩ := h.youngest hd hm hk fun j x hlt hx hkeeps => hlast j hlt ⟨x, hx, hkeeps⟩
  simp [hstuck a hret] at hsome

/-- A built-in init in its loop is hung up on by the death of the daemon alone, and only when the younger
containers that have inherited its death pipe have ended. -/
theorem run_death_pipes (h : Reaches Family.step (fun _ _ => True) .start f) (hm : f.members[k]? = some m)
    (hs : m.age = .serving) (hb : m.kind = .builtin) :
    (f.writers k = true ↔ f.daemon = true ∨
      ∃ (j : ℕ) (x : Member), k < j ∧ f.members[j]? = some x ∧ x.keeps) ∧
    (m.init.hungUp = true → f.daemon = false ∧
      ∀ (j : ℕ) (x : Member), k < j → f.members[j]? = some x → ¬ x.keeps) := by
  have hf := Sound.of_reaches h
  refine ⟨hf.writers_iff hm hs hb, fun hup => ?_⟩
  obtain ⟨hd, hnone⟩ := hf.hung k m hm hup
  refine ⟨hd, fun j x hlt hx hkeeps => hnone j x hx hkeeps.1 ?_⟩
  exact hf.heirs k m hm (by simp [hs]) hb ((hf.fit k m hm).told (.inr hs)) j x hx hlt hkeeps

/-- No container with the built-in init outlives the daemon for long. -/
theorem run_outlives (h : Reaches Family.step (fun _ _ => True) .start f) (hd : f.daemon = false)
    {as : List Act} (hr : run Family.step f as = some f') :
    (as.map Act.cost).sum ≤ 19 * f.members.length + (as.map Act.credit).sum ∧
    ((∀ a : Act, a.returns = true → f'.step a = none) →
      ∀ m ∈ f'.members, m.age = .ended ∨ m.kind = .executed ∧ m.age = .serving) := by
  obtain ⟨⟨hf', hd'⟩, hcost⟩ := @run_cost Family Act Family.step Family.weight Act.cost Act.credit
    (fun f => Sound f ∧ f.daemon = false) f f' as
    (fun _ _ _ hf hst => ⟨⟨hf.1.step hst, (hf.1.step_weight hf.2 hst).1⟩, (hf.1.step_weight hf.2 hst).2⟩)
    ⟨Sound.of_reaches h, hd⟩ hr
  have hweight : f.weight ≤ 19 * f.members.length := weight_le_length
  refine ⟨by omega, fun hstuck m hm => ?_⟩
  obtain ⟨k, hk⟩ := List.getElem?_of_mem hm
  by_contra hno
  push Not at hno
  exact hf'.stuck hd' hstuck hk (keeps_of hno.1 fun hboth => hno.2 hboth.1 hboth.2)

end

def twoOrphans : List Act :=
  [.start .builtin, .speak true, .hear 0, .settle 0 true, .start .builtin, .speak true, .hear 1,
    .settle 1 true, .daemonDies]

def orphansLeave : List Act :=
  [.hangUp 1, .init 1 (.setup true), .init 1 (.setup true), .init 1 (.setup true), .init 1 .poll,
    .hangUp 0, .init 0 (.setup true), .init 0 (.setup true), .init 0 (.setup true), .init 0 .poll]

/-- The older one's pipe has a writer. -/
def Family.elderWaits (f : Family) : Bool :=
  f.members[0]?.any (fun m => decide (m.age = .serving ∧ m.kind = .builtin)) && (!f.daemon && f.writers 0)

theorem run_death_pipes_two : ∃ f : Family, f.daemon = false ∧ f.writers 0 = true ∧
    (f.daemon = true ∨ ∃ (j : ℕ) (x : Member), 0 < j ∧ f.members[j]? = some x ∧ x.keeps) := by
  obtain ⟨f₀, f, h₀, hr, ht⟩ := exists_of_executes Family.step (fun _ _ => True) (some .start) twoOrphans
    (fun _ f => f.elderWaits) (by decide +kernel)
  obtain rfl := Option.some.inj h₀
  obtain ⟨hany, ht⟩ := Bool.and_eq_true_iff.mp ht
  obtain ⟨hd, hw⟩ := Bool.and_eq_true_iff.mp ht
  obtain ⟨m, hm, hage⟩ := (Option.any_eq_true _ _).mp hany
  obtain ⟨hs, hb⟩ := of_decide_eq_true hage
  exact ⟨f, by simpa using hd, hw, (run_death_pipes hr hm hs hb).1.mp hw⟩

def Family.deserted (f : Family) : Bool := f.members.all fun m => decide (m.age = .ended)

theorem run_outlives_two : ∃ f f' : Family, f.daemon = false ∧ run Family.step f orphansLeave = some f' ∧
    (orphansLeave.map Act.cost).sum ≤ 38 ∧ f'.deserted = true := by
  obtain ⟨f₀, f, h₀, hr, ht⟩ := exists_of_executes Family.step (fun _ _ => True) (some .start) twoOrphans
    (fun _ f => decide (f.daemon = false ∧ f.members.length = 2) &&
      (run Family.step f orphansLeave).any Family.deserted) (by decide +kernel)
  obtain rfl := Option.some.inj h₀
  obtain ⟨hlen, hany⟩ := Bool.and_eq_true_iff.mp ht
  obtain ⟨hd, hlen⟩ := of_decide_eq_true hlen
  obtain ⟨f', hrun, hgone⟩ := (Option.any_eq_true _ _).mp hany
  have hcost := (run_outlives hr hd hrun).1
  rw [hlen] at hcost
  exact ⟨f, f', hd, hrun, hcost, hgone⟩

end Conrt.Container
