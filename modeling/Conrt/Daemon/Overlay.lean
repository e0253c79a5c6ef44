import Conrt.Base.FileTree

/-! Removing the overlay a container has left: which entries are reached. -/
namespace Conrt.Daemon

open Conrt.Base

variable {ν : Type} [DecidableEq ν]

/-- Makes every entry accessible, a directory's entries before the directory. `none` when `n` levels
are not enough. -/
def chmodR (deny : Policy ν) : ℕ → Disk ν → Path ν → Option (Disk ν)
  | 0, _, _ => none
  | n + 1, d, path =>
    let each (d : Disk ν) (entries : List ν) : Option (Disk ν) :=
      entries.foldlM (fun d name => chmodR deny n d (path.below [name])) d
    match d.symlinkMetadata deny path with
    | none => some d
    | some .dir =>
      let read :=
        match d.readDir deny path with
        | some entries => each d entries
        | none =>
          let d := d.setPermissions deny path 0o700
          match d.readDir deny path with
          | some entries => each d entries
          | none => some d
      read.map fun d => d.setPermissions deny path 0o700
    | some _ => some (d.setPermissions deny path 0o600)

def cleanupOverlay (deny : Policy ν) (d : Disk ν) (dir : Path ν) : Option (Disk ν) := do
  let n := Disk.deepest d.tree + 1
  let d ← chmodR deny n d dir
  let r ← d.removeDirAll deny n dir
  some r.2

/-- No symbolic link below `p`, which is at `loc`, leads out of `root` when it is followed. -/
def Confines (t : FileTree ν) (root : Loc ν) (p : Path ν) (loc : Loc ν) : Prop :=
  ∀ rel link target, t.kinds.lookup (loc ++ rel) = some (.link link) →
    t.locate true (p.below rel) = some target → root <+: target

/-- What a path names is at `loc`, of this kind. -/
structure Spot (t : FileTree ν) (p : Path ν) (loc : Loc ν) (k : Kind ν) : Prop where
  located : t.locate false p = some loc
  kind : t.kinds.lookup loc = some k

/-- Between two moments modes were set, and only within `root`. -/
structure Chmods (root : Loc ν) (d d' : Disk ν) : Prop where
  within : Disk.Within root d d'
  kinds : d'.tree.kinds = d.tree.kinds
  cwd : d'.tree.cwd = d.tree.cwd

variable {deny : Policy ν} {root loc : Loc ν} {p : Path ν} {d d' d'' : Disk ν} {t t' : FileTree ν}

theorem Chmods.refl (root : Loc ν) (d : Disk ν) : Chmods root d d := ⟨.refl root d, rfl, rfl⟩

theorem Chmods.trans (h : Chmods root d d') (h' : Chmods root d' d'') : Chmods root d d'' :=
  ⟨h.within.trans h'.within, h'.kinds.trans h.kinds, h'.cwd.trans h.cwd⟩

theorem Chmods.locate (h : Chmods root d d') (follow : Bool) (p : Path ν) :
    d'.tree.locate follow p = d.tree.locate follow p := FileTree.locate_congr h.kinds h.cwd p

theorem Confines.chmods (h : Confines d.tree root p loc) {root' : Loc ν} (hc : Chmods root' d d') :
    Confines d'.tree root p loc := by
  intro rel link target hk ht
  rw [hc.kinds] at hk
  rw [hc.locate] at ht
  exact h rel link target hk ht

theorem Confines.child (h : Confines t root p loc) (n : ν) : Confines t root (p.below [n]) (loc ++ [n]) := by
  intro rel link target hk ht
  rw [List.append_assoc] at hk
  rw [Path.below_below] at ht
  exact h _ link target hk ht

theorem Spot.chmods {k : Kind ν} (h : Spot d.tree p loc k) (hc : Chmods root d d') :
    Spot d'.tree p loc k := by
  constructor
  · rw [hc.locate]
    exact h.located
  · rw [hc.kinds]
    exact h.kind

theorem Spot.child (h : Spot t p loc .dir) {n : ν} {k : Kind ν} (hk : t.kinds.lookup (loc ++ [n]) = some k) :
    Spot t (p.below [n]) (loc ++ [n]) k := by
  refine ⟨?_, hk⟩
  rw [FileTree.locate_below (FileTree.locate_true h.located (.inl h.kind)) h.kind, hk]
  rfl

/-- Setting the mode of what a path names, or of what a link there leads to. -/
theorem Spot.setPermissions {k : Kind ν} (h : Spot d.tree p loc k) (hc : Confines d.tree root p loc)
    (hin : root <+: loc) (mode : ℕ) : Chmods root d (d.setPermissions deny p mode) := by
  have htree : (d.setPermissions deny p mode).tree.kinds = d.tree.kinds ∧
      (d.setPermissions deny p mode).tree.cwd = d.tree.cwd := Disk.setPermissions_tree mode
  refine ⟨Disk.setPermissions_within mode ?_, htree.1, htree.2⟩
  intro target ht
  cases k with
  | link link =>
    apply hc [] link target
    · rw [List.append_nil]
      exact h.kind
    · rwa [Path.below_nil]
  | dir =>
    rw [FileTree.locate_true h.located (.inl h.kind)] at ht
    exact Option.some.inj ht ▸ hin
  | file =>
    rw [FileTree.locate_true h.located (.inr h.kind)] at ht
    exact Option.some.inj ht ▸ hin

/-- The entries that are read are there. -/
theorem Spot.mem_readDir {k : Kind ν} (h : Spot d.tree p loc k) {entries : List ν} {n : ν}
    (hread : d.readDir deny p = some entries) (hn : n ∈ entries) (hdir : k = .dir) :
    ∃ k', d.tree.kinds.lookup (loc ++ [n]) = some k' := by
  subst hdir
  rw [Disk.readDir, FileTree.locate_true h.located (.inl h.kind)] at hread
  split_ifs at hread with hdeny
  simp only at hread
  split_ifs at hread
  obtain rfl := Option.some.inj hread
  exact FileTree.mem_children.mp (List.mem_filter.mp hn).1

theorem Spot.symlinkMetadata {k kind : Kind ν} (h : Spot d.tree p loc k)
    (hm : d.symlinkMetadata deny p = some kind) : k = kind := by
  rw [Disk.symlinkMetadata, h.located] at hm
  split_ifs at hm
  exact Option.some.inj (h.kind.symm.trans hm)

/-- Going through a tree whose links stay within `root` ends, and stays within it as well. -/
theorem chmodR_chmods {n b : ℕ} (hb : ∀ loc k, d.tree.kinds.lookup loc = some k → loc.length ≤ b)
    (hn : b < n + loc.length) {k : Kind ν} (hs : Spot d.tree p loc k) (hc : Confines d.tree root p loc)
    (hin : root <+: loc) : ∃ d', chmodR deny n d p = some d' ∧ Chmods root d d' := by
  induction n generalizing d p loc k with
  | zero =>
    have hle := hb loc k hs.kind
    omega
  | succ n ih =>
    have hset : ∀ d₁, Chmods root d d₁ → ∀ mode, Chmods root d (d₁.setPermissions deny p mode) := by
      intro d₁ h₁ mode
      exact h₁.trans ((hs.chmods h₁).setPermissions (hc.chmods h₁) hin mode)
    have heach : ∀ d₁ entries, Chmods root d d₁ → k = .dir → d₁.readDir deny p = some entries →
        ∃ d₂, entries.foldlM (fun d name => chmodR deny n d (p.below [name])) d₁ = some d₂ ∧
          Chmods root d d₂ := by
      intro d₁ entries h₁ hdir hread
      have hloop : ∃ d₂, entries.foldlM (fun d name => chmodR deny n d (p.below [name])) d₁ = some d₂ ∧
          Chmods root d₁ d₂ := by
        apply Disk.foldlM_keeps (fun d => .refl root d) (fun h h' => h.trans h') d₁
        intro name hname d₂ h₂
        obtain ⟨k', hk'⟩ := (hs.chmods h₁).mem_readDir hread hname hdir
        subst hdir
        have hchild := ((hs.chmods h₁).child hk').chmods h₂
        apply ih _ _ hchild (((hc.chmods h₁).child name).chmods h₂)
        · exact hin.trans (List.prefix_append loc [name])
        · intro l k hl
          rw [h₂.kinds, h₁.kinds] at hl
          exact hb l k hl
        · rw [List.length_append, List.length_singleton]
          omega
      obtain ⟨d₂, h₂, hch⟩ := hloop
      exact ⟨d₂, h₂, h₁.trans hch⟩
    rw [chmodR]
    cases hmeta : d.symlinkMetadata deny p with
    | none => exact ⟨d, rfl, .refl root d⟩
    | some kind =>
      obtain rfl := hs.symlinkMetadata hmeta
      cases k with
      | file => exact ⟨_, rfl, hset d (.refl root d) 0o600⟩
      | link target => exact ⟨_, rfl, hset d (.refl root d) 0o600⟩
      | dir =>
        dsimp only
        cases hread : d.readDir deny p with
        | some entries =>
          obtain ⟨d₂, h₂, hch⟩ := heach d entries (.refl root d) rfl hread
          dsimp only
          rw [h₂]
          exact ⟨_, rfl, hset d₂ hch 0o700⟩
        | none =>
          have h₁ := hset d (.refl root d) 0o700
          dsimp only
          cases hread' : (d.setPermissions deny p 0o700).readDir deny p with
          | some entries =>
            obtain ⟨d₂, h₂, hch⟩ := heach _ entries h₁ rfl hread'
            dsimp only
            rw [h₂]
            exact ⟨_, rfl, hset d₂ hch 0o700⟩
          | none => exact ⟨_, rfl, hset _ h₁ 0o700⟩

def permitAll : Policy ν := fun _ _ => false

theorem confines_all (t : FileTree ν) (p : Path ν) (loc : Loc ν) : Confines t [] p loc :=
  fun _ _ _ _ _ => List.nil_prefix

theorem setPermissions_touches {target : Loc ν} (ht : d.tree.locate true p = some target) (mode : ℕ) :
    target ∈ (d.setPermissions permitAll p mode).touched := by
  simp [Disk.setPermissions, permitAll, ht]

private theorem readDir_permitAll (hs : Spot d.tree p loc .dir) :
    d.readDir permitAll p = some (d.tree.children loc) := by
  simp [Disk.readDir, permitAll, FileTree.locate_true hs.located (.inl hs.kind), hs.kind]

/-- Every entry of the tree is reached, and the mode of what its path leads to is set. -/
theorem chmodR_touches {n b : ℕ} (hg : d.tree.Grounded)
    (hb : ∀ loc k, d.tree.kinds.lookup loc = some k → loc.length ≤ b) (hn : b < n + loc.length) {k : Kind ν}
    (hs : Spot d.tree p loc k) (h : chmodR permitAll n d p = some d') {rel : List ν} {k' : Kind ν}
    {target : Loc ν} (hk' : d.tree.kinds.lookup (loc ++ rel) = some k')
    (ht : d.tree.locate true (p.below rel) = some target) : target ∈ d'.touched := by
  induction n generalizing d p loc k rel d' with
  | zero => cases h
  | succ n ih =>
    have hmeta : d.symlinkMetadata permitAll p = some k := by
      rw [Disk.symlinkMetadata, hs.located]
      exact hs.kind
    rw [chmodR, hmeta] at h
    by_cases hdir : k = .dir
    · subst hdir
      dsimp only at h
      rw [readDir_permitAll hs] at h
      obtain ⟨d₂, hloop, rfl⟩ := Option.map_eq_some_iff.mp h
      have hdeep : ∀ d₁, Chmods [] d d₁ → ∀ l k, d₁.tree.kinds.lookup l = some k → l.length ≤ b := by
        intro d₁ h₁ l k hl
        rw [h₁.kinds] at hl
        exact hb l k hl
      have hlen : ∀ m : ν, b < n + (loc ++ [m]).length := by
        intro m
        rw [List.length_append, List.length_singleton]
        omega
      have hstep : ∀ m ∈ d.tree.children loc, ∀ d₁, Chmods [] d d₁ →
          ∃ u, chmodR permitAll n d₁ (p.below [m]) = some u ∧ Chmods [] d₁ u := by
        intro m hm d₁ h₁
        obtain ⟨k₁, hk₁⟩ := FileTree.mem_children.mp hm
        exact chmodR_chmods (hdeep d₁ h₁) (hlen m) ((hs.child hk₁).chmods h₁) (confines_all _ _ _)
          List.nil_prefix
      obtain ⟨d₃, h₃, hch⟩ := Disk.foldlM_keeps (fun d => Chmods.refl [] d) (fun h h' => h.trans h') d hstep
      have heq : some d₃ = some d₂ := h₃.symm.trans hloop
      obtain rfl := Option.some.inj heq
      cases rel with
      | nil =>
        rw [Path.below_nil] at ht
        apply setPermissions_touches
        rw [hch.locate]
        exact ht
      | cons m rel =>
        have hm : ∃ k₁, d.tree.kinds.lookup (loc ++ [m]) = some k₁ := by
          cases rel with
          | nil => exact ⟨k', hk'⟩
          | cons m' rel =>
            rw [List.append_cons] at hk'
            exact ⟨.dir, hg.dir (List.cons_ne_nil _ _) hk'⟩
        obtain ⟨d₁, d₂, h₁, hturn, hlater⟩ := Disk.foldlM_visits (fun d => Chmods.refl [] d)
          (fun h h' => h.trans h') (FileTree.mem_children.mpr hm) hstep hloop
        obtain ⟨k₁, hk₁⟩ := hm
        have hspot := (hs.child hk₁).chmods h₁
        have hground : d₁.tree.Grounded := by
          intro l n k hl
          rw [h₁.kinds] at hl ⊢
          exact hg l n k hl
        have htouched : target ∈ d₂.touched := by
          apply ih hground (hdeep d₁ h₁) (hlen m) hspot hturn
          · rw [h₁.kinds, List.append_assoc]
            exact hk'
          · rw [h₁.locate, Path.below_below]
            exact ht
        have hset : Chmods [] d₃ (d₃.setPermissions permitAll p 0o700) :=
          (hs.chmods hch).setPermissions (confines_all _ _ _) List.nil_prefix 0o700
        exact hset.within.mem (hlater.within.mem htouched)
    · have hrel : rel = [] := by
        by_contra hne
        have hparent := hg.dir hne hk'
        rw [hs.kind] at hparent
        exact hdir (Option.some.inj hparent)
      rw [hrel, Path.below_nil] at ht
      cases k with
      | dir => exact (hdir rfl).elim
      | file =>
        obtain rfl := Option.some.inj h
        exact setPermissions_touches ht 0o600
      | link l =>
        obtain rfl := Option.some.inj h
        exact setPermissions_touches ht 0o600

theorem cleanupOverlay_eq {dir : Path ν} (hdir : Spot t dir root .dir) {root' : Loc ν}
    (hc : Confines t root' dir root) (hin : root' <+: root) (deny : Policy ν) :
    ∃ d₁ d, chmodR deny (Disk.deepest t + 1) ⟨t, []⟩ dir = some d₁ ∧ cleanupOverlay deny ⟨t, []⟩ dir = some d ∧
      Disk.Within root' ⟨t, []⟩ d₁ ∧ Disk.Within root' d₁ d := by
  have hdeep : ∀ l k, t.kinds.lookup l = some k → l.length ≤ Disk.deepest t :=
    fun l k => Disk.length_le_deepest
  have hspot : Spot (⟨t, []⟩ : Disk ν).tree dir root .dir := hdir
  obtain ⟨d₁, h₁, hch⟩ : ∃ d₁, chmodR deny (Disk.deepest t + 1) ⟨t, []⟩ dir = some d₁ ∧
      Chmods root' ⟨t, []⟩ d₁ := chmodR_chmods hdeep (by omega) hspot hc hin
  have hdeep₁ : ∀ l k, d₁.tree.kinds.lookup l = some k → l.length ≤ Disk.deepest t := by
    intro l k hl
    rw [hch.kinds] at hl
    exact hdeep l k hl
  have hlocated : ∀ loc, d₁.tree.locate false dir = some loc → root' <+: loc := by
    intro loc hloc
    rw [hch.locate, hspot.located] at hloc
    exact Option.some.inj hloc ▸ hin
  obtain ⟨r, hr, hw⟩ : ∃ r, d₁.removeDirAll deny (Disk.deepest t + 1) dir = some r ∧
      Disk.Within root' d₁ r.2 := Disk.removeDirAll_within hdeep₁ (Nat.lt_succ_self _) hlocated
  refine ⟨d₁, r.2, h₁, ?_, hch.within, hw⟩
  simp only [cleanupOverlay, h₁, hr, Option.bind_eq_bind, Option.bind_some]

/-- The cleanup of an overlay ends and leaves everything outside it alone, whatever the kernel refuses,
exactly when no symbolic link in it leads outside. -/
theorem cleanupOverlay_within_iff (hg : t.Grounded) {dir : Path ν} (hdir : t.locate false dir = some root)
    (hroot : t.kinds.lookup root = some .dir) :
    (∀ deny, ∃ d, cleanupOverlay deny ⟨t, []⟩ dir = some d ∧ Disk.Within root ⟨t, []⟩ d) ↔
      Confines t root dir root := by
  have hspot : Spot t dir root .dir := ⟨hdir, hroot⟩
  constructor
  · intro h rel link target hk ht
    obtain ⟨d, hd, hwithin⟩ := h permitAll
    obtain ⟨d₁, d', h₁, hd', -, hlater⟩ := cleanupOverlay_eq hspot (confines_all t dir root) List.nil_prefix
      permitAll
    have heq : some d' = some d := hd'.symm.trans hd
    obtain rfl := Option.some.inj heq
    have hdeep : ∀ l k, t.kinds.lookup l = some k → l.length ≤ Disk.deepest t :=
      fun l k => Disk.length_le_deepest
    have htouched : target ∈ d₁.touched := by
      have hs : Spot (⟨t, []⟩ : Disk ν).tree dir root .dir := hspot
      exact chmodR_touches hg hdeep (by omega) hs h₁ hk ht
    obtain ⟨locs, hlocs, hin⟩ := hwithin.touched
    apply hin
    have hmem := hlater.mem htouched
    rw [hlocs] at hmem
    exact hmem
  · intro hc deny
    obtain ⟨d₁, d, -, hd, hw₁, hw₂⟩ := cleanupOverlay_eq hspot hc (List.prefix_refl root) deny
    exact ⟨d, hd, hw₁.trans hw₂⟩

/-- An overlay with one link in it, beside a file of the host's. -/
def hostTree (link : Path String) : FileTree String :=
  .ofEntries [(["tmp", "c", "l"], .link link), (["tmp", "c", "data"], .file), (["tmp", "c"], .dir),
    (["tmp"], .dir), (["etc", "shadow"], .file), (["etc"], .dir), ([], .dir)]

def overlayPath : Path String := ⟨true, [.name "tmp", .name "c"]⟩

/-- A link that stays inside. -/
theorem cleanupOverlay_within_iff_inside : ∃ d, cleanupOverlay permitAll
    ⟨hostTree ⟨false, [.up, .name "c", .name "data"]⟩, []⟩ overlayPath = some d ∧
      Disk.Within ["tmp", "c"] ⟨hostTree ⟨false, [.up, .name "c", .name "data"]⟩, []⟩ d := by
  apply (cleanupOverlay_within_iff _ _ _).mpr
  · intro rel link target hk ht
    have hmem := FileTree.mem_keys.mpr ⟨_, hk⟩
    have hkeys : (hostTree ⟨false, [.up, .name "c", .name "data"]⟩).kinds.keys =
        [["tmp", "c", "l"], ["tmp", "c", "data"], ["tmp", "c"], ["tmp"], ["etc", "shadow"], ["etc"], []] := by
      decide +kernel
    rw [hkeys] at hmem
    have hrel : rel ∈ [["l"], ["data"], []] := by simpa using hmem
    have hall : ∀ rel ∈ [["l"], ["data"], []], ((hostTree ⟨false, [.up, .name "c", .name "data"]⟩).locate true
        (overlayPath.below rel)).all (fun l => decide (["tmp", "c"] <+: l)) = true := by
      decide +kernel
    have hin := hall rel hrel
    rw [ht] at hin
    exact of_decide_eq_true hin
  · exact FileTree.grounded_iff.mpr (by decide +kernel)
  · decide +kernel
  · decide +kernel

/-- A link to a file of the host's: its mode is set through the link. -/
theorem host_file_changed : ¬ ∀ deny, ∃ d,
    cleanupOverlay deny ⟨hostTree ⟨true, [.name "etc", .name "shadow"]⟩, []⟩ overlayPath = some d ∧
      Disk.Within ["tmp", "c"] ⟨hostTree ⟨true, [.name "etc", .name "shadow"]⟩, []⟩ d := by
  intro h
  obtain ⟨d, hd, hwithin⟩ := h permitAll
  have hmode : ((cleanupOverlay permitAll ⟨hostTree ⟨true, [.name "etc", .name "shadow"]⟩, []⟩
      overlayPath).any fun d => d.tree.mode ["etc", "shadow"] = 0o600) = true := by decide +kernel
  rw [hd, Option.any_some, decide_eq_true_eq] at hmode
  have hsame := hwithin.mode ["etc", "shadow"] (by decide)
  rw [hmode] at hsame
  cases hsame

end Conrt.Daemon
