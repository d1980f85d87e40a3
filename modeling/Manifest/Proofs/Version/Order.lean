import Manifest.Version
import Manifest.Proofs.Decimal.Digits
import Mathlib.Data.List.MinMax
import Mathlib.Order.Compare

/-! The order of versions is linear: versions that compare equal are the same. So the greatest and
the least of several versions do not depend on how the versions stand. -/
namespace Manifest

namespace Version

open Std (TransCmp LawfulEqCmp OrientedCmp ReflCmp)

section Comparisons

variable {α β : Type} {cmp cmp' : α → α → Ordering}

theorem transCmp_on [TransCmp cmp] (f : β → α) : TransCmp fun a b => cmp (f a) (f b) where
  eq_swap {a b} := OrientedCmp.eq_swap (a := f a) (b := f b)
  isLE_trans {a b c} := TransCmp.isLE_trans (a := f a) (b := f b) (c := f c)

theorem lawfulEqCmp_compareOn {f : β → Nat} (hf : Function.Injective f) :
    LawfulEqCmp (compareOn f) where
  compare_self {b} := ReflCmp.compare_self (a := f b)
  eq_of_compare {a b} h := hf (LawfulEqCmp.eq_of_compare (a := f a) (b := f b) h)

theorem eq_of_compareLex {a b : α} (h : compareLex cmp cmp' a b = .eq) :
    cmp a b = .eq ∧ cmp' a b = .eq := by
  simpa [compareLex, Ordering.then_eq_eq] using h

/-- Those with a property are below all others; each kind has an order of its own. -/
def byKind (p : α → Bool) (cmp cmp' : α → α → Ordering) (a b : α) : Ordering :=
  match p a, p b with
  | true, true => cmp a b
  | true, false => .lt
  | false, true => .gt
  | false, false => cmp' a b

instance [TransCmp cmp] [TransCmp cmp'] (p : α → Bool) : TransCmp (byKind p cmp cmp') where
  eq_swap {a b} := by
    unfold byKind
    cases p a <;> cases p b
    · exact (OrientedCmp.eq_swap : cmp' a b = (cmp' b a).swap)
    · rfl
    · rfl
    · exact (OrientedCmp.eq_swap : cmp a b = (cmp b a).swap)
  isLE_trans {a b c} hab hbc := by
    unfold byKind at *
    cases ha : p a <;> cases hb : p b <;> cases hc : p c <;> simp only [ha, hb, hc] at *
    · exact TransCmp.isLE_trans hab hbc
    · exact absurd hbc (by decide)
    · exact absurd hab (by decide)
    · exact absurd hab (by decide)
    · rfl
    · exact absurd hbc (by decide)
    · rfl
    · exact TransCmp.isLE_trans hab hbc

theorem lawfulEqCmp_byKind [ReflCmp cmp] [ReflCmp cmp'] {p : α → Bool}
    (h : ∀ a b, p a = true → p b = true → cmp a b = .eq → a = b)
    (h' : ∀ a b, p a = false → p b = false → cmp' a b = .eq → a = b) :
    LawfulEqCmp (byKind p cmp cmp') where
  compare_self {a} := by
    unfold byKind
    cases p a
    · exact (ReflCmp.compare_self : cmp' a a = .eq)
    · exact (ReflCmp.compare_self : cmp a a = .eq)
  eq_of_compare {a b} heq := by
    unfold byKind at heq
    cases ha : p a <;> cases hb : p b <;> simp only [ha, hb] at heq
    · exact h' a b ha hb heq
    · cases heq
    · cases heq
    · exact h a b ha hb heq

end Comparisons

theorem compareChars_eq : compareChars = List.compareLex (compareOn Char.toNat) := by
  funext a b
  induction a generalizing b with
  | nil => cases b <;> rfl
  | cons c a ih =>
    cases b with
    | nil => rfl
    | cons d b =>
      rw [compareChars, ih, List.compareLex_cons_cons]
      rfl

instance : TransCmp compareChars := compareChars_eq ▸ inferInstance

instance : LawfulEqCmp compareChars :=
  have := lawfulEqCmp_compareOn (f := Char.toNat) fun _ _ => Char.toNat_inj.mp
  compareChars_eq ▸ inferInstance

def compareNumeric : List Char → List Char → Ordering :=
  compareLex (compareOn Decimal.value) (compareOn List.length)

theorem compareIdentifier_eq :
    compareIdentifier = byKind isNumeric compareNumeric compareChars := rfl

instance : TransCmp compareNumeric := inferInstanceAs (TransCmp (compareLex _ _))

instance : TransCmp compareIdentifier := compareIdentifier_eq ▸ inferInstance

instance : LawfulEqCmp compareIdentifier := by
  refine compareIdentifier_eq ▸ lawfulEqCmp_byKind (fun a b ha hb h => ?_) fun a b _ _ h =>
    LawfulEqCmp.eq_of_compare h
  obtain ⟨hvalue, hlength⟩ := eq_of_compareLex h
  exact Decimal.eq_of_value_eq (List.all_eq_true.mp ha) (List.all_eq_true.mp hb)
    (LawfulEqCmp.eq_of_compare hlength) (LawfulEqCmp.eq_of_compare hvalue)

theorem compareIdentifiers_eq : compareIdentifiers = List.compareLex compareIdentifier := by
  funext a b
  induction a generalizing b with
  | nil => cases b <;> rfl
  | cons c a ih =>
    cases b with
    | nil => rfl
    | cons d b => rw [compareIdentifiers, ih, List.compareLex_cons_cons]

instance : TransCmp compareIdentifiers := compareIdentifiers_eq ▸ inferInstance

instance : LawfulEqCmp compareIdentifiers := compareIdentifiers_eq ▸ inferInstance

theorem comparePre_eq :
    comparePre = byKind (fun a => !a.isEmpty) compareIdentifiers compareIdentifiers := by
  funext a b
  cases a <;> cases b <;> rfl

instance : TransCmp comparePre := comparePre_eq ▸ inferInstance

instance : LawfulEqCmp comparePre :=
  comparePre_eq ▸ lawfulEqCmp_byKind (fun _ _ _ _ h => LawfulEqCmp.eq_of_compare h)
    fun _ _ _ _ h => LawfulEqCmp.eq_of_compare h

theorem compare_eq :
    Version.compare = compareLex (compareOn Version.major) (compareLex (compareOn Version.minor)
      (compareLex (compareOn Version.patch) (compareLex (fun v w => comparePre v.pre w.pre)
        fun v w => compareIdentifiers v.build w.build))) := rfl

instance : TransCmp Version.compare :=
  have : TransCmp fun v w : Version => comparePre v.pre w.pre := transCmp_on Version.pre
  have : TransCmp fun v w : Version => compareIdentifiers v.build w.build :=
    transCmp_on Version.build
  compare_eq ▸ inferInstance

instance : LawfulEqCmp Version.compare where
  compare_self {v} := by
    have hpre : comparePre v.pre v.pre = .eq := ReflCmp.compare_self
    have hbuild : compareIdentifiers v.build v.build = .eq := ReflCmp.compare_self
    simp [Version.compare, hpre, hbuild]
  eq_of_compare {v w} h := by
    rw [compare_eq] at h
    obtain ⟨hmajor, h⟩ := eq_of_compareLex h
    obtain ⟨hminor, h⟩ := eq_of_compareLex h
    obtain ⟨hpatch, h⟩ := eq_of_compareLex h
    obtain ⟨hpre, hbuild⟩ := eq_of_compareLex h
    cases v
    cases w
    simp only [Version.mk.injEq]
    exact ⟨LawfulEqCmp.eq_of_compare hmajor, LawfulEqCmp.eq_of_compare hminor,
      LawfulEqCmp.eq_of_compare hpatch,
      LawfulEqCmp.eq_of_compare hpre, LawfulEqCmp.eq_of_compare hbuild⟩

theorem le_iff_isLE {v w : Version} : v ≤ w ↔ (Version.compare v w).isLE = true :=
  Ordering.isLE_iff_ne_gt.symm

instance : LinearOrder Version where
  le_refl v := le_iff_isLE.mpr ReflCmp.isLE_rfl
  le_trans u v w huv hvw :=
    le_iff_isLE.mpr (TransCmp.isLE_trans (le_iff_isLE.mp huv) (le_iff_isLE.mp hvw))
  le_antisymm v w hvw hwv :=
    LawfulEqCmp.eq_of_compare (OrientedCmp.isLE_antisymm (le_iff_isLE.mp hvw) (le_iff_isLE.mp hwv))
  le_total v w := by
    have hswap : Version.compare w v = (Version.compare v w).swap := OrientedCmp.eq_swap
    rw [le_iff_isLE, le_iff_isLE, hswap]
    cases Version.compare v w <;> simp
  toDecidableLE := inferInstance

theorem greatest?_eq_max? (vs : List Version) : greatest? vs = vs.max? := by
  cases vs with
  | nil => rfl
  | cons v vs => rfl

theorem least?_eq_min? (vs : List Version) : least? vs = vs.min? := by
  cases vs with
  | nil => rfl
  | cons v vs => rfl

end Version
end Manifest
