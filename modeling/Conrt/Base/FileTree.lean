import Conrt.Base.Table
import Mathlib.Data.List.Infix

/-! File trees with symbolic links: how a path is followed, and the calls that act through one. -/
namespace Conrt.Base

/-- Where an entry is: the names from the root down. -/
abbrev Loc (ν : Type) := List ν

inductive Component (ν : Type)
  | here
  | up
  | name (n : ν)
deriving DecidableEq

/-- A path, or what a link contains. -/
structure Path (ν : Type) where
  absolute : Bool
  components : List (Component ν)
deriving DecidableEq

inductive Kind (ν : Type)
  | file
  | dir
  | link (target : Path ν)
deriving DecidableEq

structure FileTree (ν : Type) where
  kinds : Table (Loc ν) (Kind ν)
  mode : Loc ν → ℕ
  cwd : Loc ν

variable {ν : Type}

/-- The entry `rel` names below a directory. -/
def Path.below (p : Path ν) (rel : List ν) : Path ν := { p with components := p.components ++ rel.map .name }

@[simp] theorem Path.below_nil (p : Path ν) : p.below [] = p := by simp [below]

@[simp] theorem Path.below_below (p : Path ν) (rel rel' : List ν) :
    (p.below rel).below rel' = p.below (rel ++ rel') := by
  simp [below]

variable [DecidableEq ν]

namespace FileTree

/-- Every entry but the root is in a directory. -/
def Grounded (t : FileTree ν) : Prop :=
  ∀ loc n k, t.kinds.lookup (loc ++ [n]) = some k → t.kinds.lookup loc = some .dir

/-- The tree with these entries, the working directory at its root. -/
def ofEntries (entries : List (Loc ν × Kind ν)) : FileTree ν :=
  ⟨entries.foldr (fun e t => t.insert e.1 e.2) ∅, fun _ => 0o644, []⟩

def children (t : FileTree ν) (loc : Loc ν) : List ν :=
  t.kinds.keys.filterMap fun l => if l.dropLast = loc then l.getLast? else none

/-- Where a path leads without following a link. -/
inductive Arrival (ν : Type)
  | arrived (loc : Loc ν)
  | missing
  | link (dir : Loc ν) (target : Path ν) (rest : List (Component ν))
deriving DecidableEq

/-- Goes as far as the first link that has to be followed; the last component's may not have to. -/
def advance (t : FileTree ν) (follow : Bool) : Loc ν → List (Component ν) → Arrival ν
  | cur, [] => .arrived cur
  | cur, .here :: cs => advance t follow cur cs
  | cur, .up :: cs => advance t follow cur.dropLast cs
  | cur, .name n :: cs =>
    match t.kinds.lookup (cur ++ [n]) with
    | none => .missing
    | some .dir => advance t follow (cur ++ [n]) cs
    | some .file => if cs = [] then .arrived (cur ++ [n]) else .missing
    | some (.link target) => if cs = [] ∧ follow = false then .arrived (cur ++ [n]) else .link cur target cs

/-- Follows fewer than `links` links. -/
def resolve (t : FileTree ν) (follow : Bool) : ℕ → Loc ν → List (Component ν) → Option (Loc ν)
  | 0, _, _ => none
  | links + 1, cur, cs =>
    match t.advance follow cur cs with
    | .arrived loc => some loc
    | .missing => none
    | .link dir target rest =>
      resolve t follow links (if target.absolute then [] else dir) (target.components ++ rest)

def maxLinks : ℕ := 40

/-- The entry a path names; `follow` says whether a link there is followed too. -/
def locate (t : FileTree ν) (follow : Bool) (p : Path ν) : Option (Loc ν) :=
  t.resolve follow (maxLinks + 1) (if p.absolute then [] else t.cwd) p.components

variable {t : FileTree ν} {cur loc : Loc ν} {cs : List (Component ν)} {n : ν} {follow : Bool}

theorem mem_keys : loc ∈ t.kinds.keys ↔ ∃ k, t.kinds.lookup loc = some k := by
  rw [← Option.isSome_iff_exists, AList.lookup_isSome]
  rfl

theorem grounded_iff : t.Grounded ↔
    ∀ loc ∈ t.kinds.keys, loc ≠ [] → t.kinds.lookup loc.dropLast = some .dir := by
  constructor
  · intro h loc hloc hne
    obtain ⟨k, hk⟩ := mem_keys.mp hloc
    rw [← List.dropLast_append_getLast hne] at hk
    exact h _ _ k hk
  · intro h loc n k hk
    have hparent := h _ (mem_keys.mpr ⟨k, hk⟩) (List.append_ne_nil_of_right_ne_nil loc (List.cons_ne_nil n []))
    rwa [List.dropLast_concat] at hparent

theorem mem_children : n ∈ t.children loc ↔ ∃ k, t.kinds.lookup (loc ++ [n]) = some k := by
  rw [children, List.mem_filterMap]
  constructor
  · rintro ⟨l, hl, hn⟩
    split_ifs at hn with hloc
    have hne : l ≠ [] := by
      rintro rfl
      cases hn
    have hsplit : loc ++ [n] = l := by
      rw [List.getLast?_eq_getLast_of_ne_nil hne] at hn
      rw [← hloc, ← Option.some.inj hn]
      exact List.dropLast_append_getLast hne
    rw [hsplit]
    exact mem_keys.mp hl
  · intro hk
    exact ⟨loc ++ [n], mem_keys.mpr hk, by simp⟩

/-- A path that leads to a directory is continued from there. -/
theorem advance_arrived (h : t.advance true cur cs = .arrived loc) (hk : t.kinds.lookup loc = some .dir)
    (ds : List (Component ν)) : t.advance follow cur (cs ++ ds) = t.advance follow loc ds := by
  induction cs generalizing cur with
  | nil =>
    obtain rfl := Arrival.arrived.inj h
    rfl
  | cons c cs ih =>
    cases c with
    | here => exact ih h
    | up => exact ih h
    | name m =>
      simp only [List.cons_append, advance] at h ⊢
      cases hm : t.kinds.lookup (cur ++ [m]) with
      | none => simp [hm] at h
      | some k =>
        rw [hm] at h
        cases k with
        | dir => exact ih h
        | file =>
          simp only at h
          split_ifs at h
          obtain rfl := Arrival.arrived.inj h
          rw [hm] at hk
          cases hk
        | link target => simp at h

theorem advance_link {dir : Loc ν} {target : Path ν} {rest : List (Component ν)}
    (h : t.advance true cur cs = .link dir target rest) {ds : List (Component ν)} (hds : ds ≠ []) :
    t.advance follow cur (cs ++ ds) = .link dir target (rest ++ ds) := by
  induction cs generalizing cur with
  | nil => cases h
  | cons c cs ih =>
    cases c with
    | here => exact ih h
    | up => exact ih h
    | name m =>
      simp only [List.cons_append, advance] at h ⊢
      cases hm : t.kinds.lookup (cur ++ [m]) with
      | none => simp [hm] at h
      | some k =>
        rw [hm] at h
        cases k with
        | dir => exact ih h
        | file =>
          simp only at h
          split_ifs at h
        | link target' =>
          simp at h
          obtain ⟨rfl, rfl, rfl⟩ := h
          simp [hds]

/-- The two ways of going along a path part only where it ends at a link. -/
theorem advance_true : t.advance true cur cs = t.advance false cur cs ∨
    ∃ loc target, t.advance false cur cs = .arrived loc ∧ t.kinds.lookup loc = some (.link target) := by
  induction cs generalizing cur with
  | nil => exact .inl rfl
  | cons c cs ih =>
    cases c with
    | here => exact ih
    | up => exact ih
    | name m =>
      simp only [advance]
      cases hm : t.kinds.lookup (cur ++ [m]) with
      | none => exact .inl rfl
      | some k =>
        cases k with
        | dir => exact ih
        | file => exact .inl rfl
        | link target =>
          by_cases hcs : cs = []
          · right
            exact ⟨cur ++ [m], target, by simp [hcs], hm⟩
          · left
            simp [hcs]

/-- Not following the last link makes no difference unless the path ends at one. -/
theorem resolve_true {links : ℕ} (h : t.resolve false links cur cs = some loc)
    (hk : t.kinds.lookup loc = some .dir ∨ t.kinds.lookup loc = some .file) :
    t.resolve true links cur cs = some loc := by
  induction links generalizing cur cs with
  | zero => cases h
  | succ links ih =>
    rw [resolve] at h ⊢
    have hsame : t.advance true cur cs = t.advance false cur cs := by
      rcases t.advance_true with hsame | ⟨loc', target, ha, hlink⟩
      · exact hsame
      · rw [ha] at h
        obtain rfl := Option.some.inj h
        rw [hlink] at hk
        rcases hk with hk | hk <;> cases hk
    rw [hsame]
    cases ha : t.advance false cur cs with
    | arrived loc' =>
      rw [ha] at h
      exact h
    | missing =>
      rw [ha] at h
      cases h
    | link dir target rest =>
      rw [ha] at h
      exact ih h

/-- Below a directory that a path leads to, the path is continued. -/
theorem resolve_below {links : ℕ} (h : t.resolve true links cur cs = some loc)
    (hk : t.kinds.lookup loc = some .dir) (n : ν) :
    t.resolve false links cur (cs ++ [.name n]) = (t.kinds.lookup (loc ++ [n])).map fun _ => loc ++ [n] := by
  induction links generalizing cur cs with
  | zero => cases h
  | succ links ih =>
    rw [resolve] at h ⊢
    cases ha : t.advance true cur cs with
    | arrived loc' =>
      rw [ha] at h
      obtain rfl := Option.some.inj h
      rw [advance_arrived ha hk, advance]
      cases t.kinds.lookup (loc' ++ [n]) with
      | none => rfl
      | some k => cases k <;> simp [advance]
    | missing =>
      rw [ha] at h
      cases h
    | link dir target rest =>
      rw [ha] at h
      rw [advance_link ha (List.cons_ne_nil _ _)]
      dsimp only
      rw [← List.append_assoc]
      exact ih h

/-- What is found below a directory, a link there not being followed. -/
theorem locate_below {p : Path ν} (h : t.locate true p = some loc) (hk : t.kinds.lookup loc = some .dir)
    (n : ν) : t.locate false (p.below [n]) = (t.kinds.lookup (loc ++ [n])).map fun _ => loc ++ [n] :=
  resolve_below h hk n

/-- A path acts on the entry it names unless that is a link. -/
theorem locate_true {p : Path ν} (h : t.locate false p = some loc)
    (hk : t.kinds.lookup loc = some .dir ∨ t.kinds.lookup loc = some .file) : t.locate true p = some loc :=
  resolve_true h hk

/-- Where paths lead is a matter of names and links alone. -/
theorem locate_congr {t' : FileTree ν} (hk : t'.kinds = t.kinds) (hc : t'.cwd = t.cwd) (p : Path ν) :
    t'.locate follow p = t.locate follow p := by
  have hadvance : ∀ cs cur, t'.advance follow cur cs = t.advance follow cur cs := by
    intro cs
    induction cs with
    | nil => exact fun _ => rfl
    | cons c cs ih =>
      intro cur
      cases c with
      | here => exact ih cur
      | up => exact ih _
      | name m => simp only [advance, hk, ih]
  have hresolve : ∀ links cur cs, t'.resolve follow links cur cs = t.resolve follow links cur cs := by
    intro links
    induction links with
    | zero => exact fun _ _ => rfl
    | succ links ih =>
      intro cur cs
      simp only [resolve, hadvance, ih]
  rw [locate, locate, hc, hresolve]

theorem Grounded.dir (h : t.Grounded) {rel : List ν} {k : Kind ν} (hrel : rel ≠ [])
    (hk : t.kinds.lookup (loc ++ rel) = some k) : t.kinds.lookup loc = some .dir := by
  induction rel using List.reverseRecOn generalizing k with
  | nil => exact (hrel rfl).elim
  | append_singleton rel n ih =>
    rw [← List.append_assoc] at hk
    have hparent := h _ n k hk
    cases rel with
    | nil => rwa [List.append_nil] at hparent
    | cons m rel => exact ih (List.cons_ne_nil _ _) hparent

end FileTree

inductive FileCall (ν : Type)
  | symlinkMetadata (p : Path ν)
  | readDir (p : Path ν)
  | entry (p : Path ν) (n : ν)
  | setPermissions (p : Path ν) (mode : ℕ)
  | enter (loc : Loc ν)
  | remove (loc : Loc ν)
deriving DecidableEq

/-- The calls the kernel refuses, whether for an entry's mode or for any other reason. -/
abbrev Policy (ν : Type) := FileTree ν → FileCall ν → Bool

/-- A tree, and the entries whose modes were set or that were removed. -/
structure Disk (ν : Type) where
  tree : FileTree ν
  touched : List (Loc ν)

namespace Disk

variable (deny : Policy ν)

/-- Follows every link but one at the path's end. -/
def symlinkMetadata (d : Disk ν) (p : Path ν) : Option (Kind ν) :=
  if deny d.tree (.symlinkMetadata p) then none
  else (d.tree.locate false p).bind d.tree.kinds.lookup

def readDir (d : Disk ν) (p : Path ν) : Option (List ν) :=
  if deny d.tree (.readDir p) then none
  else
    match d.tree.locate true p with
    | none => none
    | some loc =>
      if d.tree.kinds.lookup loc = some .dir then
        some ((d.tree.children loc).filter fun n => !deny d.tree (.entry p n))
      else none

/-- Follows a link at the path's end. -/
def setPermissions (d : Disk ν) (p : Path ν) (mode : ℕ) : Disk ν :=
  if deny d.tree (.setPermissions p mode) then d
  else
    match d.tree.locate true p with
    | none => d
    | some loc =>
      { tree := { d.tree with mode := Function.update d.tree.mode loc mode }
        touched := d.touched ++ [loc] }

def remove (d : Disk ν) (loc : Loc ν) : Bool × Disk ν :=
  if deny d.tree (.remove loc) || d.tree.children loc != [] then (false, d)
  else
    (true, { tree := { d.tree with kinds := d.tree.kinds.erase loc }, touched := d.touched ++ [loc] })

/-- Removes the entries of a directory and then the directory, up to the first failure. Links are
removed, not followed. -/
def removeTree : ℕ → Disk ν → Loc ν → Option (Bool × Disk ν)
  | 0, _, _ => none
  | n + 1, d, loc =>
    if deny d.tree (.enter loc) then some (false, d)
    else do
      let r ← (d.tree.children loc).foldlM (fun r name =>
        if r.1 then
          match r.2.tree.kinds.lookup (loc ++ [name]) with
          | none => some r
          | some .dir => removeTree n r.2 (loc ++ [name])
          | some _ => some (r.2.remove deny (loc ++ [name]))
        else some r) (true, d)
      if r.1 then some (r.2.remove deny loc) else some r

def removeDirAll (n : ℕ) (d : Disk ν) (p : Path ν) : Option (Bool × Disk ν) :=
  match d.symlinkMetadata deny p, d.tree.locate false p with
  | some .dir, some loc => removeTree deny n d loc
  | some (.link _), some loc => some (d.remove deny loc)
  | _, _ => some (false, d)

/-- Between two moments nothing outside `root` was touched, and nothing was created. -/
structure Within (root : Loc ν) (d d' : Disk ν) : Prop where
  touched : ∃ locs, d'.touched = d.touched ++ locs ∧ ∀ loc ∈ locs, root <+: loc
  kinds : ∀ loc, ¬ root <+: loc → d'.tree.kinds.lookup loc = d.tree.kinds.lookup loc
  mode : ∀ loc, ¬ root <+: loc → d'.tree.mode loc = d.tree.mode loc
  kept : ∀ loc k, d'.tree.kinds.lookup loc = some k → d.tree.kinds.lookup loc = some k

variable {deny} {root loc : Loc ν} {d d' d'' : Disk ν} {p : Path ν}

theorem Within.refl (root : Loc ν) (d : Disk ν) : Within root d d := by
  constructor
  case touched => exact ⟨[], by simp, by simp⟩
  case kinds => exact fun _ _ => rfl
  case mode => exact fun _ _ => rfl
  case kept => exact fun _ _ h => h

theorem Within.trans (h : Within root d d') (h' : Within root d' d'') : Within root d d'' := by
  constructor
  case touched =>
    obtain ⟨locs, ht, hin⟩ := h.touched
    obtain ⟨locs', ht', hin'⟩ := h'.touched
    refine ⟨locs ++ locs', by rw [ht', ht, List.append_assoc], ?_⟩
    intro loc hloc
    rcases List.mem_append.mp hloc with hloc | hloc
    · exact hin loc hloc
    · exact hin' loc hloc
  case kinds =>
    intro loc hloc
    rw [h'.kinds loc hloc, h.kinds loc hloc]
  case mode =>
    intro loc hloc
    rw [h'.mode loc hloc, h.mode loc hloc]
  case kept =>
    intro loc k hk
    exact h.kept loc k (h'.kept loc k hk)

/-- What was touched stays so. -/
theorem Within.mem (h : Within root d d') (hloc : loc ∈ d.touched) : loc ∈ d'.touched := by
  obtain ⟨locs, ht, -⟩ := h.touched
  rw [ht]
  exact List.mem_append_left _ hloc

/-- Setting a mode moves no entry. -/
theorem setPermissions_tree (mode : ℕ) : (d.setPermissions deny p mode).tree.kinds = d.tree.kinds ∧
    (d.setPermissions deny p mode).tree.cwd = d.tree.cwd := by
  rw [setPermissions]
  split_ifs
  · exact ⟨rfl, rfl⟩
  · cases d.tree.locate true p <;> exact ⟨rfl, rfl⟩

theorem setPermissions_within (mode : ℕ) (h : ∀ loc, d.tree.locate true p = some loc → root <+: loc) :
    Within root d (d.setPermissions deny p mode) := by
  rw [setPermissions]
  split_ifs
  · exact .refl root d
  · cases hp : d.tree.locate true p with
    | none => exact .refl root d
    | some loc =>
      have hin := h loc hp
      constructor
      case touched => exact ⟨[loc], rfl, by simpa using hin⟩
      case kinds => exact fun _ _ => rfl
      case mode =>
        intro loc' hout
        apply Function.update_of_ne
        rintro rfl
        exact hout hin
      case kept => exact fun _ _ hk => hk

theorem remove_within (hin : root <+: loc) : Within root d (d.remove deny loc).2 := by
  rw [remove]
  split_ifs
  · exact .refl root d
  · constructor
    case touched => exact ⟨[loc], rfl, by simpa using hin⟩
    case kinds =>
      intro loc' hout
      have hne : loc' ≠ loc := by
        rintro rfl
        exact hout hin
      exact AList.lookup_erase_ne hne
    case mode => exact fun _ _ => rfl
    case kept =>
      intro loc' k hk
      have hk : (d.tree.kinds.erase loc).lookup loc' = some k := hk
      rw [Table.lookup_erase_ite] at hk
      split_ifs at hk
      exact hk

def deepest (t : FileTree ν) : ℕ := t.kinds.keys.foldr (fun loc b => max loc.length b) 0

theorem length_le_deepest {t : FileTree ν} {k : Kind ν} (h : t.kinds.lookup loc = some k) :
    loc.length ≤ deepest t := by
  have hmem := FileTree.mem_keys.mpr ⟨k, h⟩
  rw [deepest]
  generalize t.kinds.keys = keys at hmem ⊢
  induction keys with
  | nil => cases hmem
  | cons l ls ih =>
    rcases List.mem_cons.mp hmem with rfl | hmem
    · exact le_max_left _ _
    · exact (ih hmem).trans (le_max_right _ _)

/-- A loop whose every turn ends, and stays within a relation that composes. -/
theorem foldlM_keeps {α σ : Type} {f : σ → α → Option σ} {R : σ → σ → Prop} (hrefl : ∀ s, R s s)
    (htrans : ∀ {s t u}, R s t → R t u → R s u) {xs : List α} (s : σ)
    (hstep : ∀ x ∈ xs, ∀ t, R s t → ∃ u, f t x = some u ∧ R t u) :
    ∃ u, xs.foldlM f s = some u ∧ R s u := by
  induction xs generalizing s with
  | nil => exact ⟨s, rfl, hrefl s⟩
  | cons x xs ih =>
    obtain ⟨t, ht, hst⟩ := hstep x List.mem_cons_self s (hrefl s)
    obtain ⟨u, hu, htu⟩ := ih t fun y hy v htv => hstep y (List.mem_cons_of_mem x hy) v (htrans hst htv)
    refine ⟨u, ?_, htrans hst htu⟩
    rw [List.foldlM_cons, ht]
    exact hu

/-- Every turn of such a loop is taken, and what comes before and after it stays within the relation. -/
theorem foldlM_visits {α σ : Type} {f : σ → α → Option σ} {R : σ → σ → Prop} (hrefl : ∀ s, R s s)
    (htrans : ∀ {s t u}, R s t → R t u → R s u) {xs : List α} {x : α} (hx : x ∈ xs) {s u : σ}
    (hstep : ∀ y ∈ xs, ∀ t, R s t → ∃ u, f t y = some u ∧ R t u) (h : xs.foldlM f s = some u) :
    ∃ t v, R s t ∧ f t x = some v ∧ R v u := by
  induction xs generalizing s with
  | nil => cases hx
  | cons y xs ih =>
    obtain ⟨t, ht, hst⟩ := hstep y List.mem_cons_self s (hrefl s)
    have hrest := fun z hz v htv => hstep z (List.mem_cons_of_mem y hz) v (htrans hst htv)
    rw [List.foldlM_cons, ht] at h
    rcases List.mem_cons.mp hx with rfl | hx
    · obtain ⟨v, hv, htv⟩ := foldlM_keeps hrefl htrans t hrest
      have hvu : some v = some u := hv.symm.trans h
      exact ⟨s, t, hrefl s, ht, Option.some.inj hvu ▸ htv⟩
    · obtain ⟨v, w, hv, hw, hwu⟩ := ih hx hrest h
      exact ⟨v, w, htrans hst hv, hw, hwu⟩

/-- Removing a tree ends, and touches nothing outside it. -/
theorem removeTree_within {n b : ℕ} (hb : ∀ loc k, d.tree.kinds.lookup loc = some k → loc.length ≤ b)
    (hn : b < n + loc.length) (hloc : loc.length ≤ b) (hin : root <+: loc) :
    ∃ r, removeTree deny n d loc = some r ∧ Within root d r.2 := by
  induction n generalizing d loc with
  | zero => omega
  | succ n ih =>
    rw [removeTree]
    split_ifs with hdeny
    · exact ⟨_, rfl, .refl root d⟩
    · have hloop : ∃ r : Bool × Disk ν, (d.tree.children loc).foldlM (fun r name =>
          if r.1 then
            match r.2.tree.kinds.lookup (loc ++ [name]) with
            | none => some r
            | some .dir => removeTree deny n r.2 (loc ++ [name])
            | some _ => some (r.2.remove deny (loc ++ [name]))
          else some r) (true, d) = some r ∧ Within root d r.2 := by
        apply foldlM_keeps (R := fun r r' : Bool × Disk ν => Within root r.2 r'.2)
          (fun r => .refl root r.2) (fun h h' => h.trans h') (true, d)
        intro name _ r hr
        have hbelow : root <+: loc ++ [name] := hin.trans (List.prefix_append loc [name])
        split_ifs
        · cases hk : r.2.tree.kinds.lookup (loc ++ [name]) with
          | none => exact ⟨r, rfl, .refl root r.2⟩
          | some k =>
            cases k with
            | dir =>
              apply ih _ _ _ hbelow
              · intro l k hl
                exact hb l k (hr.kept l k hl)
              · rw [List.length_append, List.length_singleton]
                omega
              · exact hb _ _ (hr.kept _ _ hk)
            | file => exact ⟨_, rfl, remove_within hbelow⟩
            | link target => exact ⟨_, rfl, remove_within hbelow⟩
        · exact ⟨r, rfl, .refl root r.2⟩
      obtain ⟨r, hr, hw⟩ := hloop
      simp only [Option.bind_eq_bind, hr, Option.bind_some]
      split_ifs
      · exact ⟨_, rfl, hw.trans (remove_within hin)⟩
      · exact ⟨r, rfl, hw⟩

theorem removeDirAll_within {n b : ℕ} (hb : ∀ loc k, d.tree.kinds.lookup loc = some k → loc.length ≤ b)
    (hn : b < n) (hin : ∀ loc, d.tree.locate false p = some loc → root <+: loc) :
    ∃ r, removeDirAll deny n d p = some r ∧ Within root d r.2 := by
  rw [removeDirAll]
  cases hk : d.symlinkMetadata deny p with
  | none => exact ⟨_, rfl, .refl root d⟩
  | some k =>
    cases hloc : d.tree.locate false p with
    | none => cases k <;> exact ⟨_, rfl, .refl root d⟩
    | some loc =>
      cases k with
      | file => exact ⟨_, rfl, .refl root d⟩
      | link target => exact ⟨_, rfl, remove_within (hin loc hloc)⟩
      | dir =>
        rw [symlinkMetadata] at hk
        split_ifs at hk
        rw [hloc] at hk
        exact removeTree_within hb (by omega) (hb loc _ hk) (hin loc hloc)

end Disk

end Conrt.Base
