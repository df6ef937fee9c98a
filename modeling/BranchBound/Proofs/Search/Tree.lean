import BranchBound.Column.Codec
import BranchBound.Proofs.Column.Cut
import Mathlib.Algebra.BigOperators.Fin
import Mathlib.Algebra.Order.BigOperators.Group.Finset

/-!
# Search trees

A search tree grows from the columns of a root.  Each inner node picks a column, judges it by some
relaxation, and branches on it; its children are the columns after the branching was applied in
either direction.

Whatever relaxations are used, the leaves share the integer points of the root among them, no
child contains the value that was branched on, and every path is at most as long as the soft
ranges of the root are wide together.

Main results:

- Theorem `Column.Bounded.halves_of_split?`: what one branching leaves of a bounded column.
- Theorem `SearchTree.countP_leaves`: a point of the root lies in one leaf, any other in none.
- Theorem `SearchTree.length_path_le`: a path is at most as long as the root is wide.
- Theorem `SearchTree.lossless_and_terminating`: all of this together.
-/

namespace BranchBound

open Binary64

-- The number of units in one has 1075 bits and is never to be evaluated.
attribute [local irreducible] Grid.one

/-- Whether a double lies in a range. -/
def Interval.Contains (i : Interval Binary64) (x : Binary64) : Prop := i.lower ≤ x ∧ x ≤ i.upper

/-! ## Columns with finite integral ranges -/

namespace Column

/-- An integer or binary column whose soft bounds are finite integers in order. -/
structure Bounded (c : Column Binary64) : Prop where
  /-- It is an integer or a binary column. -/
  integrality : c.integrality = .integer ∨ c.integrality = .binary
  /-- The lower soft bound is a finite integer. -/
  lower : c.soft.lower.IsInteger
  /-- The upper soft bound is a finite integer. -/
  upper : c.soft.upper.IsInteger
  /-- The soft bounds are in order. -/
  le : c.soft.lower ≤ c.soft.upper

/-- The column of a child of a branching. -/
def child (c : Column Binary64) (b : Branch Binary64) (direction : Direction) :
    Except Fault (Column Binary64) :=
  (b.apply c.toEntity direction).map fun e => { c with toEntity := e }

/-- How far apart the soft bounds are. -/
def width (c : Column Binary64) : ℚ := c.soft.upper.toRat - c.soft.lower.toRat

/-- Whether an integer lies in the soft range. -/
def Admits (c : Column Binary64) (z : ℤ) : Prop :=
  c.soft.lower.toRat ≤ z ∧ (z : ℚ) ≤ c.soft.upper.toRat

instance (c : Column Binary64) (z : ℤ) : Decidable (c.Admits z) :=
  inferInstanceAs (Decidable (_ ∧ _))

theorem bounded_iff {c : Column Binary64} :
    c.Bounded ↔ (c.integrality = .integer ∨ c.integrality = .binary) ∧ c.soft.lower.IsInteger ∧
      c.soft.upper.IsInteger ∧ c.soft.lower ≤ c.soft.upper :=
  ⟨fun h => ⟨h.integrality, h.lower, h.upper, h.le⟩, fun ⟨h₁, h₂, h₃, h₄⟩ => ⟨h₁, h₂, h₃, h₄⟩⟩

instance (c : Column Binary64) : Decidable c.Bounded := decidable_of_iff _ bounded_iff.symm

theorem Bounded.searchable {c : Column Binary64} (h : c.Bounded) : c.Searchable :=
  ⟨h.integrality, Or.inl h.lower, Or.inl h.upper, h.le⟩

theorem Bounded.toRat_le {c : Column Binary64} (h : c.Bounded) :
    c.soft.lower.toRat ≤ c.soft.upper.toRat :=
  (le_iff_toRat h.lower.isFinite h.upper.isFinite).1 h.le

theorem Bounded.width_nonneg {c : Column Binary64} (h : c.Bounded) : 0 ≤ c.width :=
  sub_nonneg.2 h.toRat_le

/-- A child has the soft bounds that the branching holds for it. -/
theorem soft_of_child {c d : Column Binary64} {b : Branch Binary64} {direction : Direction}
    (h : c.child b direction = .ok d) :
    d.integrality = c.integrality ∧ d.soft = b.bounds direction := by
  unfold child Branch.apply at h
  split at h
  · cases h
    exact ⟨rfl, rfl⟩
  · cases h

/-- What a branching of a bounded column leaves: two bounded columns, each narrower by one at
least, that share the integers of the column and leave out the value branched on. -/
structure Halves (c down up : Column Binary64) (v : Binary64) : Prop where
  /-- The down child is bounded. -/
  bounded_down : down.Bounded
  /-- The up child is bounded. -/
  bounded_up : up.Bounded
  /-- The down child is narrower by one. -/
  width_down : down.width + 1 ≤ c.width
  /-- The up child is narrower by one. -/
  width_up : up.width + 1 ≤ c.width
  /-- An integer of the column is in one of the children. -/
  admits_iff : ∀ z, c.Admits z ↔ down.Admits z ∨ up.Admits z
  /-- No integer is in both children. -/
  disjoint : ∀ z, ¬ (down.Admits z ∧ up.Admits z)
  /-- The value is not in the down child. -/
  not_in_down : ¬ down.soft.Contains v
  /-- The value is not in the up child. -/
  not_in_up : ¬ up.soft.Contains v

/-- A branching of a bounded column leaves two halves of it. -/
theorem Bounded.halves_of_split? {c down up : Column Binary64} (hc : c.Bounded)
    {r : Relaxation Binary64} (hr : ∀ x ∈ r.solution, x.isFinite = true) {way : Direction}
    {b : Branch Binary64} (hb : c.split? r way = some b) (hdown : c.child b .down = .ok down)
    (hup : c.child b .up = .ok up) : c.Halves down up b.value := by
  rcases hc.searchable.cut_of_split? hr hb with ⟨-, -, n, hcut⟩
  rcases soft_of_child hdown with ⟨hclass, hsoft⟩
  rcases soft_of_child hup with ⟨hclass', hsoft'⟩
  have hlower : down.soft.lower = c.soft.lower := by rw [hsoft]; exact hcut.down_lower
  have hupper : up.soft.upper = c.soft.upper := by rw [hsoft']; exact hcut.up_upper
  have hends : down.soft.upper = b.down.upper := by rw [hsoft]; rfl
  have hstarts : up.soft.lower = b.up.lower := by rw [hsoft']; rfl
  have hle := (le_iff_toRat hc.lower.isFinite hcut.finite_down).1 hcut.lower_le
  have hge := (le_iff_toRat hcut.finite_up hc.upper.isFinite).1 hcut.le_upper
  have hn := hcut.toRat_down
  have hsucc := hcut.toRat_up
  push_cast at hsucc
  have hlt := hcut.lt_value
  have hgt := hcut.value_lt
  push_cast at hgt
  refine ⟨⟨by rw [hclass]; exact hc.integrality, ?_, ?_, ?_⟩,
    ⟨by rw [hclass']; exact hc.integrality, ?_, ?_, ?_⟩, ?_, ?_, ?_, ?_, ?_, ?_⟩
  · rw [hlower]
    exact hc.lower
  · rw [hends]
    exact ⟨hcut.finite_down, n, hn⟩
  · rw [hlower, hends]
    exact hcut.lower_le
  · rw [hstarts]
    exact ⟨hcut.finite_up, n + 1, hcut.toRat_up⟩
  · rw [hupper]
    exact hc.upper
  · rw [hstarts, hupper]
    exact hcut.le_upper
  · unfold width
    rw [hlower, hends]
    linarith
  · unfold width
    rw [hstarts, hupper]
    linarith
  · intro z
    unfold Admits
    rw [hlower, hends, hstarts, hupper, hn, hsucc]
    have hz : z ≤ n ∨ n + 1 ≤ z := by omega
    constructor
    · rintro ⟨hfrom, hto⟩
      rcases hz with hz | hz
      · exact Or.inl ⟨hfrom, by exact_mod_cast hz⟩
      · exact Or.inr ⟨by exact_mod_cast hz, hto⟩
    · rintro (⟨hfrom, hto⟩ | ⟨hfrom, hto⟩)
      · exact ⟨hfrom, by linarith⟩
      · exact ⟨by linarith, hto⟩
  · rintro z ⟨⟨-, hto⟩, hfrom, -⟩
    rw [hends, hn] at hto
    rw [hstarts, hsucc] at hfrom
    linarith
  · rintro ⟨-, hto⟩
    rw [hends, le_iff_toRat hcut.finite_value hcut.finite_down, hn] at hto
    linarith
  · rintro ⟨hfrom, -⟩
    rw [hstarts, le_iff_toRat hcut.finite_up hcut.finite_value, hsucc] at hfrom
    linarith

end Column

/-! ## Boxes -/

/-- The columns of a node, as many as the root has. -/
abbrev Columns (n : ℕ) : Type := Fin n → Column Binary64

namespace Columns

variable {n : ℕ}

/-- Whether an integer point lies in the box of the soft ranges. -/
def Holds (columns : Columns n) (z : Fin n → ℤ) : Prop := ∀ k, (columns k).Admits (z k)

instance (columns : Columns n) (z : Fin n → ℤ) : Decidable (columns.Holds z) :=
  inferInstanceAs (Decidable (∀ _, _))

/-- How wide the soft ranges are together. -/
def width (columns : Columns n) : ℚ := ∑ k, (columns k).width

/-- The columns with one of them replaced. -/
def put (columns : Columns n) (k : Fin n) (c : Column Binary64) : Columns n :=
  Function.update columns k c

@[simp] theorem put_self (columns : Columns n) (k : Fin n) (c : Column Binary64) :
    columns.put k c k = c := by
  simp [put]

theorem put_of_ne (columns : Columns n) {k l : Fin n} (h : l ≠ k) (c : Column Binary64) :
    columns.put k c l = columns l := by
  simp [put, h]

/-- A replaced column changes the width by as much as its own width differs. -/
theorem width_put (columns : Columns n) (k : Fin n) (c : Column Binary64) :
    (columns.put k c).width + (columns k).width = columns.width + c.width := by
  have hrest : ∑ l ∈ Finset.univ.erase k, (columns.put k c l).width =
      ∑ l ∈ Finset.univ.erase k, (columns l).width := by
    refine Finset.sum_congr rfl fun l hl => ?_
    rw [put_of_ne columns (Finset.ne_of_mem_erase hl)]
  have hput := Finset.add_sum_erase Finset.univ (fun l => (columns.put k c l).width)
    (Finset.mem_univ k)
  have hold := Finset.add_sum_erase Finset.univ (fun l => (columns l).width) (Finset.mem_univ k)
  simp only [put_self] at hput
  unfold width
  linarith

/-- Replacing a column by a bounded one leaves all columns bounded. -/
theorem bounded_put {columns : Columns n} (h : ∀ l, (columns l).Bounded) (k : Fin n)
    {c : Column Binary64} (hc : c.Bounded) (l : Fin n) : (columns.put k c l).Bounded := by
  by_cases hl : l = k
  · rw [hl, put_self]
    exact hc
  · rw [put_of_ne columns hl]
    exact h l

/-- A point is in the box with one column replaced if it is in that column and in the others. -/
theorem holds_put_iff (columns : Columns n) (k : Fin n) (c : Column Binary64)
    (z : Fin n → ℤ) :
    (columns.put k c).Holds z ↔ c.Admits (z k) ∧ ∀ l, l ≠ k → (columns l).Admits (z l) := by
  constructor
  · intro h
    refine ⟨?_, fun l hl => ?_⟩
    · have hk := h k
      rwa [put_self] at hk
    · have hl' := h l
      rwa [put_of_ne columns hl] at hl'
  · rintro ⟨hk, hrest⟩ l
    by_cases hl : l = k
    · rw [hl, put_self]
      exact hk
    · rw [put_of_ne columns hl]
      exact hrest l hl

/-- A point is in a box if it is in one column of it and in the others. -/
theorem holds_iff (columns : Columns n) (k : Fin n) (z : Fin n → ℤ) :
    columns.Holds z ↔ (columns k).Admits (z k) ∧ ∀ l, l ≠ k → (columns l).Admits (z l) := by
  have hself : columns.put k (columns k) = columns := Function.update_eq_self k columns
  rw [← holds_put_iff columns k (columns k) z, hself]

end Columns

/-! ## Trees -/

/-- A search tree from some columns.  The relaxation that judges a node is any one whose values
are finite; the branching is what the column makes of it. -/
inductive SearchTree {n : ℕ} : Columns n → Type where
  /-- A node that is not branched on. -/
  | leaf (columns : Columns n) : SearchTree columns
  /-- A node that is branched on at one of its columns. -/
  | branch {columns : Columns n} (k : Fin n) (r : Relaxation Binary64) (way : Direction)
      (b : Branch Binary64) {down up : Column Binary64}
      (finite : ∀ x ∈ r.solution, x.isFinite = true)
      (split : (columns k).split? r way = some b)
      (goesDown : (columns k).child b .down = .ok down)
      (goesUp : (columns k).child b .up = .ok up)
      (downTree : SearchTree (columns.put k down))
      (upTree : SearchTree (columns.put k up)) : SearchTree columns

/-- What happened at a node that was branched on. -/
structure Fork (n : ℕ) where
  /-- The columns of the node. -/
  columns : Columns n
  /-- The column that was branched on. -/
  column : Fin n
  /-- The relaxation that it was judged by. -/
  relaxation : Relaxation Binary64
  /-- The columns of the down child. -/
  down : Columns n
  /-- The columns of the up child. -/
  up : Columns n

/-- The value that a fork branched on is in neither child. -/
def Fork.Excludes {n : ℕ} (f : Fork n) : Prop :=
  ∃ v, (f.columns f.column).value? f.relaxation = some v ∧
    ¬ (f.down f.column).soft.Contains v ∧ ¬ (f.up f.column).soft.Contains v

namespace SearchTree

variable {n : ℕ}

/-- The columns of every leaf. -/
def leaves {columns : Columns n} : SearchTree columns → List (Columns n)
  | leaf columns => [columns]
  | branch _ _ _ _ _ _ _ _ downTree upTree => downTree.leaves ++ upTree.leaves

/-- The columns of every node. -/
def nodes {columns : Columns n} : SearchTree columns → List (Columns n)
  | leaf columns => [columns]
  | branch _ _ _ _ _ _ _ _ downTree upTree => columns :: (downTree.nodes ++ upTree.nodes)

/-- What happened at every node that was branched on. -/
def forks {columns : Columns n} : SearchTree columns → List (Fork n)
  | leaf _ => []
  | @branch _ columns k r _ _ down up _ _ _ _ downTree upTree =>
    ⟨columns, k, r, columns.put k down, columns.put k up⟩ :: (downTree.forks ++ upTree.forks)

/-- The directions taken on the way to every leaf. -/
def paths {columns : Columns n} : SearchTree columns → List (List Direction)
  | leaf _ => [[]]
  | branch _ _ _ _ _ _ _ _ downTree upTree =>
    downTree.paths.map (Direction.down :: ·) ++ upTree.paths.map (Direction.up :: ·)

/-- Every node of a tree has bounded columns if the root has. -/
theorem bounded_of_mem_nodes {root : Columns n} (t : SearchTree root)
    (hroot : ∀ k, (root k).Bounded) :
    ∀ columns ∈ t.nodes, ∀ k, (columns k).Bounded := by
  induction t with
  | leaf root =>
    intro columns hmem
    rw [nodes, List.mem_singleton] at hmem
    rw [hmem]
    exact hroot
  | @branch root k r way b down up hfinite hsplit hdown hup downTree upTree ihDown ihUp =>
    have halves := (hroot k).halves_of_split? hfinite hsplit hdown hup
    intro columns hmem
    rw [nodes, List.mem_cons, List.mem_append] at hmem
    rcases hmem with rfl | hmem | hmem
    · exact hroot
    · exact ihDown (Columns.bounded_put hroot k halves.bounded_down) columns hmem
    · exact ihUp (Columns.bounded_put hroot k halves.bounded_up) columns hmem

/-- No fork of a tree keeps the value that it branched on. -/
theorem excludes_of_mem_forks {root : Columns n} (t : SearchTree root)
    (hroot : ∀ k, (root k).Bounded) : ∀ f ∈ t.forks, f.Excludes := by
  induction t with
  | leaf root =>
    intro f hmem
    rw [forks] at hmem
    cases hmem
  | @branch root k r way b down up hfinite hsplit hdown hup downTree upTree ihDown ihUp =>
    have halves := (hroot k).halves_of_split? hfinite hsplit hdown hup
    intro f hmem
    rw [forks, List.mem_cons, List.mem_append] at hmem
    rcases hmem with rfl | hmem | hmem
    · refine ⟨b.value, ?_, ?_, ?_⟩
      · exact ((hroot k).searchable.cut_of_split? hfinite hsplit).2.1
      · simpa only [Columns.put_self] using halves.not_in_down
      · simpa only [Columns.put_self] using halves.not_in_up
    · exact ihDown (Columns.bounded_put hroot k halves.bounded_down) f hmem
    · exact ihUp (Columns.bounded_put hroot k halves.bounded_up) f hmem

/-- A point of the root lies in one leaf, any other point in none. -/
theorem countP_leaves {root : Columns n} (t : SearchTree root)
    (hroot : ∀ k, (root k).Bounded) (z : Fin n → ℤ) :
    t.leaves.countP (fun columns => decide (columns.Holds z)) =
      if root.Holds z then 1 else 0 := by
  induction t with
  | leaf root =>
    rw [leaves, List.countP_singleton]
    by_cases h : root.Holds z <;> simp [h]
  | @branch root k r way b down up hfinite hsplit hdown hup downTree upTree ihDown ihUp =>
    have halves := (hroot k).halves_of_split? hfinite hsplit hdown hup
    have hsome := halves.admits_iff (z k)
    have hone := halves.disjoint (z k)
    rw [leaves, List.countP_append, ihDown (Columns.bounded_put hroot k halves.bounded_down),
      ihUp (Columns.bounded_put hroot k halves.bounded_up)]
    simp only [Columns.holds_put_iff, root.holds_iff k]
    -- outside the column branched on, the node and its children agree
    by_cases hinDown : down.Admits (z k)
    · have hnotUp : ¬ up.Admits (z k) := fun hinUp => hone ⟨hinDown, hinUp⟩
      simp [hinDown, hnotUp, hsome]
    · by_cases hinUp : up.Admits (z k) <;> simp [hinDown, hinUp, hsome]

/-- A path is at most as long as the ranges of the root are wide. -/
theorem length_path_le {root : Columns n} (t : SearchTree root)
    (hroot : ∀ k, (root k).Bounded) : ∀ p ∈ t.paths, (p.length : ℚ) ≤ root.width := by
  induction t with
  | leaf root =>
    intro p hmem
    rw [paths, List.mem_singleton] at hmem
    rw [hmem]
    have hnonneg : 0 ≤ root.width := Finset.sum_nonneg fun k _ => (hroot k).width_nonneg
    simpa using hnonneg
  | @branch root k r way b down up hfinite hsplit hdown hup downTree upTree ihDown ihUp =>
    have halves := (hroot k).halves_of_split? hfinite hsplit hdown hup
    have hwidthDown := root.width_put k down
    have hwidthUp := root.width_put k up
    have hnarrowDown := halves.width_down
    have hnarrowUp := halves.width_up
    intro p hmem
    rw [paths, List.mem_append, List.mem_map, List.mem_map] at hmem
    rcases hmem with ⟨q, hq, rfl⟩ | ⟨q, hq, rfl⟩
    · have hlength := ihDown (Columns.bounded_put hroot k halves.bounded_down) q hq
      rw [List.length_cons, Nat.cast_succ]
      linarith
    · have hlength := ihUp (Columns.bounded_put hroot k halves.bounded_up) q hq
      rw [List.length_cons, Nat.cast_succ]
      linarith

/-- Branching is a lossless search without overlaps that ends. -/
theorem lossless_and_terminating {root : Columns n} (t : SearchTree root)
    (hroot : ∀ k, (root k).Bounded) :
    (∀ z, root.Holds z → t.leaves.countP (fun columns => decide (columns.Holds z)) = 1) ∧
      (∀ columns ∈ t.nodes, ∀ k, (columns k).soft.lower ≤ (columns k).soft.upper) ∧
      (∀ f ∈ t.forks, f.Excludes) ∧
      (∀ p ∈ t.paths, (p.length : ℚ) ≤ root.width) := by
  refine ⟨fun z hz => ?_, fun columns hmem k => ?_, t.excludes_of_mem_forks hroot,
    t.length_path_le hroot⟩
  · rw [t.countP_leaves hroot z, if_pos hz]
  · exact (t.bounded_of_mem_nodes hroot columns hmem k).le

/-- Two columns between zero and one. -/
def unitSquare : Columns 2 := fun k => { Column.initial with index := k.val }

/-- The relaxation at the centre of the unit square. -/
def centre : Relaxation Binary64 := { Relaxation.initial with solution := [0.5, 0.5] }

/-- The branching of a column of the unit square at its centre. -/
def unitSplit (k : Fin 2) : Branch Binary64 where
  index := k.val
  way := Direction.up.code
  value := 0.5
  down := ⟨0.0, 0.0⟩
  up := ⟨1.0, 1.0⟩

/-- A tree that branches on the first column and, in the up child, on the second. -/
def unitTree : SearchTree unitSquare :=
  .branch 0 centre .up (unitSplit 0) (by decide +kernel) (by decide +kernel) rfl rfl
    (.leaf _)
    (.branch 1 centre .up (unitSplit 1) (by decide +kernel) (by decide +kernel) rfl rfl
      (.leaf _) (.leaf _))

/-- The tree of the unit square is lossless and ends. -/
theorem lossless_and_terminating_unitTree :
    (∀ k, (unitSquare k).Bounded) ∧
      (∀ z, unitSquare.Holds z →
        unitTree.leaves.countP (fun columns => decide (columns.Holds z)) = 1) ∧
      (∀ columns ∈ unitTree.nodes, ∀ k, (columns k).soft.lower ≤ (columns k).soft.upper) ∧
      (∀ f ∈ unitTree.forks, f.Excludes) ∧
      (∀ p ∈ unitTree.paths, (p.length : ℚ) ≤ unitSquare.width) := by
  have hroot : ∀ k, (unitSquare k).Bounded := by decide +kernel
  exact ⟨hroot, unitTree.lossless_and_terminating hroot⟩

end SearchTree

end BranchBound
