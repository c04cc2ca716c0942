import Mathlib.Data.Set.Lattice
import Mathlib.Order.CompletePartialOrder

/-!
# How two sets lie to each other

Two sets are equal, or one strictly includes the other, or they are disjoint, or they overlap: they
meet and neither includes the other.  For sets that are not empty these five cases exclude each
other (`SetRelation.Holds.unique`).

The relation between two products is determined by the relations of the factors (`Holds.prod`), and
sets lie to each other as their preimages do (`holds_preimage_iff`).
-/

inductive SetRelation where
  | equal
  | superset
  | subset
  | disjoint
  | overlap
  deriving DecidableEq, Repr

namespace SetRelation

variable {α β : Type*}

/-- The set `A` lies to the set `B` as the relation says. -/
def Holds : SetRelation → Set α → Set α → Prop
  | equal, A, B => A = B
  | superset, A, B => B ⊂ A
  | subset, A, B => A ⊂ B
  | disjoint, A, B => Disjoint A B
  | overlap, A, B => (A ∩ B).Nonempty ∧ ¬ A ⊆ B ∧ ¬ B ⊆ A

/-- The relation of `B` to `A`. -/
def inverse : SetRelation → SetRelation
  | superset => subset
  | subset => superset
  | r => r

/-- The relation of two products, from those of their factors. -/
def prod : SetRelation → SetRelation → SetRelation
  | equal, r => r
  | disjoint, _ => disjoint
  | _, disjoint => disjoint
  | r, equal => r
  | superset, superset => superset
  | subset, subset => subset
  | _, _ => overlap

/-- Whether `A` is included in `B`. -/
def le (r : SetRelation) : Bool := r = equal ∨ r = subset

/-- Whether `B` is included in `A`. -/
def ge (r : SetRelation) : Bool := r = equal ∨ r = superset

/-- Whether `A` and `B` meet. -/
def meets (r : SetRelation) : Bool := r ≠ disjoint

variable {r r' : SetRelation} {A B : Set α}

/-- A relation is told by which of the sets includes the other and whether they meet. -/
theorem holds_iff (hA : A.Nonempty) (hB : B.Nonempty) :
  r.Holds A B ↔ (A ⊆ B ↔ r.le) ∧ (B ⊆ A ↔ r.ge) ∧ ((A ∩ B).Nonempty ↔ r.meets)
  := by
  have hle : A ⊆ B → (A ∩ B).Nonempty := fun h => by rwa [Set.inter_eq_self_of_subset_left h]
  have hge : B ⊆ A → (A ∩ B).Nonempty := fun h => by rwa [Set.inter_eq_self_of_subset_right h]
  cases r with
  | equal =>
    simp only [Holds, le, ge, meets, Set.Subset.antisymm_iff]
    simp only [true_or, decide_true, iff_true, ne_eq, reduceCtorEq, not_false_eq_true]
    exact ⟨fun h => ⟨h.1, h.2, hle h.1⟩, fun h => ⟨h.1, h.2.1⟩⟩
  | superset =>
    simp only [Holds, le, ge, meets, Set.ssubset_def]
    simp only [reduceCtorEq, or_self, decide_false, Bool.false_eq_true, iff_false, decide_true,
      iff_true, ne_eq, not_false_eq_true, or_true]
    exact ⟨fun h => ⟨h.2, h.1, hge h.1⟩, fun h => ⟨h.2.1, h.1⟩⟩
  | subset =>
    simp only [Holds, le, ge, meets, Set.ssubset_def]
    simp only [reduceCtorEq, or_self, decide_false, Bool.false_eq_true, iff_false, decide_true,
      iff_true, ne_eq, not_false_eq_true, or_true]
    exact ⟨fun h => ⟨h.1, h.2, hle h.1⟩, fun h => ⟨h.1, h.2.1⟩⟩
  | disjoint =>
    simp only [Holds, le, ge, meets, Set.disjoint_iff_inter_eq_empty]
    simp only [reduceCtorEq, or_self, decide_false, Bool.false_eq_true, iff_false, ne_eq,
      not_true_eq_false, Set.not_nonempty_iff_eq_empty]
    refine ⟨fun h => ⟨fun hsub => ?_, fun hsub => ?_, h⟩, fun h => h.2.2⟩
    · exact (hle hsub).ne_empty h
    · exact (hge hsub).ne_empty h
  | overlap =>
    simp only [Holds, le, ge, meets]
    simp only [reduceCtorEq, or_self, decide_false, Bool.false_eq_true, iff_false, ne_eq,
      not_false_eq_true, decide_true, iff_true]
    exact ⟨fun h => ⟨h.2.1, h.2.2, h.1⟩, fun h => ⟨h.2.2, h.1, h.2.1⟩⟩

theorem ext (hle : r.le = r'.le) (hge : r.ge = r'.ge) (hmeets : r.meets = r'.meets) :
  r = r'
  := by
  cases r <;> cases r' <;> first | rfl | simp [le, ge, meets] at hle hge hmeets

/-- Sets that are not empty lie to each other in one way. -/
theorem Holds.unique (hA : A.Nonempty) (hB : B.Nonempty) (h : r.Holds A B) (h' : r'.Holds A B) :
  r = r'
  := by
  obtain ⟨hle, hge, hmeets⟩ := (holds_iff hA hB).mp h
  obtain ⟨hle', hge', hmeets'⟩ := (holds_iff hA hB).mp h'
  apply ext
  · exact Bool.eq_iff_iff.mpr (hle.symm.trans hle')
  · exact Bool.eq_iff_iff.mpr (hge.symm.trans hge')
  · exact Bool.eq_iff_iff.mpr (hmeets.symm.trans hmeets')

theorem Holds.inverse (h : r.Holds A B) :
  r.inverse.Holds B A
  := by
  cases r with
  | equal => exact Eq.symm h
  | superset => exact h
  | subset => exact h
  | disjoint => exact Disjoint.symm h
  | overlap => exact ⟨Set.inter_comm A B ▸ h.1, h.2.2, h.2.1⟩

/-- The relation of products. -/
theorem Holds.prod {C D : Set β} (h : r.Holds A B) (h' : r'.Holds C D) (hA : A.Nonempty)
    (hB : B.Nonempty) (hC : C.Nonempty) (hD : D.Nonempty) :
  (r.prod r').Holds (A ×ˢ C) (B ×ˢ D)
  := by
  obtain ⟨hle, hge, hmeets⟩ := (holds_iff hA hB).mp h
  obtain ⟨hle', hge', hmeets'⟩ := (holds_iff hC hD).mp h'
  have hprod : (r.prod r').le = (r.le && r'.le) ∧ (r.prod r').ge = (r.ge && r'.ge)
      ∧ (r.prod r').meets = (r.meets && r'.meets) := by
    cases r <;> cases r' <;> decide
  rw [holds_iff (hA.prod hC) (hB.prod hD), hprod.1, hprod.2.1, hprod.2.2, Bool.and_eq_true,
    Bool.and_eq_true, Bool.and_eq_true, ← hle, ← hge, ← hmeets, ← hle', ← hge', ← hmeets']
  refine ⟨?_, ?_, ?_⟩
  · rw [Set.prod_subset_prod_iff' (hA.prod hC)]
  · rw [Set.prod_subset_prod_iff' (hB.prod hD)]
  · rw [Set.prod_inter_prod, Set.prod_nonempty_iff]

/-- Sets lie to each other as their preimages do. -/
theorem holds_preimage_iff {f : β → α} (hA : A.Nonempty) (hB : B.Nonempty) (hfA : A ⊆ Set.range f)
    (hfB : B ⊆ Set.range f) :
  r.Holds (Set.preimage f A) (Set.preimage f B) ↔ r.Holds A B
  := by
  have hpre : ∀ {C : Set α}, C.Nonempty → C ⊆ Set.range f → (Set.preimage f C).Nonempty := by
    rintro C ⟨c, hc⟩ hC
    obtain ⟨b, rfl⟩ := hC hc
    exact ⟨b, hc⟩
  have hinter : (Set.preimage f A ∩ Set.preimage f B).Nonempty ↔ (A ∩ B).Nonempty := by
    constructor
    · rintro ⟨b, hb⟩
      exact ⟨f b, hb⟩
    · exact fun h => hpre h (Set.inter_subset_left.trans hfA)
  rw [holds_iff (hpre hA hfA) (hpre hB hfB), holds_iff hA hB, hinter,
    Set.preimage_subset_preimage_iff hfA, Set.preimage_subset_preimage_iff hfB]

end SetRelation
