import TypedWire.Ty.Order
import TypedWire.Proofs.DecimalValue
import TypedWire.Proofs.Insertion
import Mathlib.Data.List.Forall2

namespace TypedWire

variable {α : Type}

theorem compareLex_eq_iff (order : α → α → Ordering) (a b : List α) :
    List.compareLex order a b = .eq ↔ List.Forall₂ (fun x y => order x y = .eq) a b := by
  induction a generalizing b with
  | nil => cases b <;> simp [List.compareLex_nil_nil, List.compareLex_nil_cons]
  | cons x a ih =>
    cases b with
    | nil => simp [List.compareLex_cons_nil]
    | cons y b => simp [List.compareLex_cons_cons, Ordering.then_eq_eq, ih]

theorem isEqv_iff (same : α → α → Bool) (a b : List α) :
    a.isEqv b same = true ↔ List.Forall₂ (fun x y => same x y = true) a b := by
  induction a generalizing b with
  | nil => cases b <;> simp [List.isEqv]
  | cons x a ih => cases b <;> simp [List.isEqv, ih]

namespace Ty

private theorem transCmp_orderOption (order : α → α → Ordering) [Std.TransCmp order] :
    Std.TransCmp (orderOption order) where
  eq_swap {a b} := by
    cases a with
    | none => cases b <;> rfl
    | some a =>
      cases b with
      | none => rfl
      | some b => exact (Std.OrientedCmp.eq_swap : order a b = (order b a).swap)
  isLE_trans {a b c} first second := by
    cases a <;> cases b <;> cases c <;> simp_all [orderOption]
    exact Std.TransCmp.isLE_trans first second

private theorem transCmp_then {β γ : Type} (first : β → β → Ordering) (second : γ → γ → Ordering)
    [Std.TransCmp first] [Std.TransCmp second] :
    Std.TransCmp fun a b : β × γ => (first a.1 b.1).then (second a.2 b.2) :=
  have := transCmp_comap first (Prod.fst : β × γ → β)
  have := transCmp_comap second (Prod.snd : β × γ → γ)
  inferInstanceAs (Std.TransCmp (compareLex _ _))

instance transCmp_order : (t : Ty) → Std.TransCmp t.order
  | .int sign _ => transCmp_comap compare sign.value
  | .float _ => transCmp_comap compare BitVec.toNat
  | .bool => transCmp_comap compare Bool.toNat
  | .unit => { eq_swap := rfl, isLE_trans := fun _ _ => rfl }
  | .text => inferInstanceAs (Std.TransCmp fun a b : String => compare a b)
  | .never => { eq_swap := fun {a} => a.elim, isLE_trans := fun {a} => a.elim }
  | .char => inferInstanceAs (Std.TransCmp fun a b : Char => compare a b)
  | .integer => inferInstanceAs (Std.TransCmp fun a b : Int => compare a b)
  | .decimal => inferInstanceAs (Std.TransCmp Decimal.order)
  | .seq _ t =>
    have := transCmp_order t
    inferInstanceAs (Std.TransCmp (List.compareLex t.order))
  | .map _ k v =>
    have := transCmp_order k
    have := transCmp_order v
    have := transCmp_then k.order v.order
    inferInstanceAs (Std.TransCmp (List.compareLex _))
  | .option t =>
    have := transCmp_order t
    transCmp_orderOption t.order
  | .pair s t =>
    have := transCmp_order s
    have := transCmp_order t
    transCmp_then s.order t.order
  | .triple s t u =>
    have := transCmp_order s
    have := transCmp_order t
    have := transCmp_order u
    have : Std.TransCmp (order (.pair t u)) := transCmp_then t.order u.order
    transCmp_then s.order (order (.pair t u))
  | .newtype _ t => transCmp_order t

theorem order_self (t : Ty) (v : t.Value) : t.order v v = .eq := Std.ReflCmp.compare_self

private theorem value_eq_iff {n : Nat} (sign : Sign) (a b : BitVec n) : sign.value a = sign.value b ↔ a = b := by
  cases sign with
  | signed => exact BitVec.toInt_inj
  | unsigned => exact Int.ofNat_inj.trans BitVec.toNat_inj

private theorem compareLex_congr {order : α → α → Ordering} {same : α → α → Bool}
    (agree : ∀ x y, same x y = true ↔ order x y = .eq) (a b : List α) :
    a.isEqv b same = true ↔ List.compareLex order a b = .eq := by
  rw [isEqv_iff, compareLex_eq_iff]
  simp only [agree]

/-- Equality and order agree on the types whose values can be keys. -/
theorem equal_iff_order (t : Ty) (ordered : t.Ordered) (a b : t.Value) :
    t.equal a b = true ↔ t.order a b = .eq := by
  induction t with
  | int sign width => simp [equal, order, value_eq_iff]
  | float p => exact ordered.elim
  | bool => cases a <;> cases b <;> decide
  | unit => simp [equal, order]
  | text => simp [equal, order]
  | never => exact a.elim
  | char => simp [equal, order]
  | integer => simp [equal, order]
  | decimal => simp [equal, order]
  | seq shape t ih =>
    obtain ⟨listed, ordered⟩ := ordered
    have same : Ty.equal (.seq shape t) a b = a.isEqv b t.equal := by
      cases shape <;> first | rfl | exact absurd rfl listed
    rw [same]
    exact compareLex_congr (ih ordered) a b
  | map shape k v ihk ihv =>
    obtain ⟨listed, orderedKey, orderedValue⟩ := ordered
    have same : Ty.equal (.map shape k v) a b =
        a.isEqv b fun p q => k.equal p.1 q.1 && v.equal p.2 q.2 := by
      cases shape <;> first | rfl | exact absurd rfl listed
    rw [same]
    refine compareLex_congr (fun p q => ?_) a b
    rw [Bool.and_eq_true, Ordering.then_eq_eq, ihk orderedKey, ihv orderedValue]
  | option t ih => cases a <;> cases b <;> simp [equal, order, orderOption, ih ordered]
  | pair s t ihs iht =>
    simp only [equal, order, Bool.and_eq_true, Ordering.then_eq_eq, ihs ordered.1, iht ordered.2]
  | triple s t u ihs iht ihu =>
    simp only [equal, order, Bool.and_eq_true, Ordering.then_eq_eq, ihs ordered.1, iht ordered.2.1,
      ihu ordered.2.2]
  | newtype decl t ih => exact ih ordered a b

theorem equal_comm {t : Ty} (ordered : t.Ordered) (a b : t.Value) : t.equal a b = t.equal b a := by
  rw [Bool.eq_iff_iff, equal_iff_order t ordered, equal_iff_order t ordered]
  exact Std.OrientedCmp.eq_comm

end Ty
end TypedWire
