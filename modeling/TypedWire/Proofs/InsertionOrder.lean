import TypedWire.Proofs.StructuralOrder
import Mathlib.Data.List.Pairwise

namespace TypedWire

namespace Sorted

variable {α β κ : Type}

private theorem insertEntry_comm_of_lt {order : κ → κ → Ordering} [Std.TransCmp order] {k l : κ}
    (before : order k l = .lt) (v w : β) (entries : List (κ × β)) :
    insertEntry order k v (insertEntry order l w entries) = insertEntry order l w (insertEntry order k v entries) := by
  have after : order l k = .gt := Std.OrientedCmp.gt_of_lt before
  induction entries with
  | nil => simp [insertEntry, before, after]
  | cons entry rest ih =>
    -- By the place of the greater key; the lesser one goes further only if the greater one does.
    cases place : order l entry.1 with
    | lt =>
      have first : order k entry.1 = .lt := Std.TransCmp.lt_trans before place
      simp [insertEntry, before, after, place, first]
    | eq =>
      have first : order k entry.1 = .lt := Std.TransCmp.lt_of_lt_of_eq before place
      simp [insertEntry, after, place, first]
    | gt =>
      cases first : order k entry.1 with
      | lt => simp [insertEntry, after, place, first]
      | eq => simp [insertEntry, place, first]
      | gt => simp [insertEntry, place, first, ih]

/-- Entries with different keys are taken in in either order. -/
theorem insertEntry_comm {order : κ → κ → Ordering} [Std.TransCmp order] {k l : κ} (different : order k l ≠ .eq)
    (v w : β) (entries : List (κ × β)) :
    insertEntry order k v (insertEntry order l w entries) = insertEntry order l w (insertEntry order k v entries) := by
  cases place : order k l with
  | lt => exact insertEntry_comm_of_lt place v w entries
  | eq => exact absurd place different
  | gt => exact (insertEntry_comm_of_lt (Std.OrientedCmp.lt_of_gt place) w v entries).symm

/-- Different elements are taken in as different keys are. -/
theorem insert_comm {order : α → α → Ordering} [Std.TransCmp order] {x y : α} (different : order x y ≠ .eq)
    (elements : List α) : insert order x (insert order y elements) = insert order y (insert order x elements) := by
  have keys : (elements.map fun z => (z, ())).map Prod.fst = elements := by
    rw [List.map_map]
    exact List.map_id elements
  have swapped := congrArg (List.map Prod.fst) (insertEntry_comm different () () (elements.map fun z => (z, ())))
  simpa only [keys_insertEntry, keys] using swapped

/-- Where only an element itself compares equal to it, the order in which elements are taken in makes no difference. -/
theorem foldl_insert_eq_of_perm {order : α → α → Ordering} [Std.TransCmp order] [Std.LawfulEqCmp order]
    (held : List α) {elements elements' : List α} (perm : elements.Perm elements') :
    elements.foldl (fun set x => insert order x set) held =
      elements'.foldl (fun set x => insert order x set) held := by
  refine perm.foldl_eq' (fun x _ y _ set => ?_) held
  by_cases same : order y x = .eq
  · rw [Std.LawfulEqCmp.eq_of_compare same]
  · exact insert_comm same set

theorem foldl_insertEntry_eq_of_perm {order : κ → κ → Ordering} [Std.TransCmp order] (held : List (κ × β))
    {entries entries' : List (κ × β)} (distinct : entries.Pairwise fun p q => order p.1 q.1 ≠ .eq)
    (perm : entries.Perm entries') :
    entries.foldl (fun map entry => insertEntry order entry.1 entry.2 map) held =
      entries'.foldl (fun map entry => insertEntry order entry.1 entry.2 map) held := by
  have : Std.Symm fun p q : κ × β => order p.1 q.1 ≠ .eq :=
    ⟨fun p q different same => different (Std.OrientedCmp.eq_symm same)⟩
  refine perm.foldl_eq' (fun p first q second map => ?_) held
  by_cases same : q = p
  · rw [same]
  · exact insertEntry_comm (distinct.forall second first same) _ _ map

end Sorted

namespace StructuralValue

/-- The order of stand-ins is total, transitive and antisymmetric, and compares equal just what is equal part by part.
So it makes no difference in which order elements are put into a set, or entries with different keys into a map,
whatever these hold already. -/
theorem order_lawful :
    (∀ x y : StructuralValue, (order x y).isLE ∨ (order y x).isLE) ∧
      (∀ x y z : StructuralValue, (order x y).isLE → (order y z).isLE → (order x z).isLE) ∧
      (∀ x y : StructuralValue, order x y = .eq ↔ (x == y) = true) ∧
      (∀ x y : StructuralValue, (x == y) = true ↔ x = y) ∧
      (∀ x y : StructuralValue, order x y = (order y x).swap) ∧
      (∀ x y : StructuralValue, (order x y).isLE → (order y x).isLE → x = y) ∧
      (∀ held elements elements' : List StructuralValue, elements.Perm elements' →
        set (elements.foldl (fun set x => Sorted.insert order x set) held) =
          set (elements'.foldl (fun set x => Sorted.insert order x set) held)) ∧
      ∀ held entries entries' : List (StructuralValue × StructuralValue),
        (entries.Pairwise fun p q => (p.1 == q.1) = false) → entries.Perm entries' →
          map (entries.foldl (fun map entry => Sorted.insertEntry order entry.1 entry.2 map) held) =
            map (entries'.foldl (fun map entry => Sorted.insertEntry order entry.1 entry.2 map) held) := by
  refine ⟨fun x y => ?_, fun x y z => Std.TransCmp.isLE_trans, fun x y => ?_, fun x y => beq_iff_eq, order_swap,
    fun x y first second => ?_, fun held elements elements' perm => ?_, fun held entries entries' distinct perm => ?_⟩
  · rw [order_swap y x]
    cases order x y <;> simp
  · rw [order_eq_iff, beq_iff_eq]
  · exact (order_eq_iff x y).mp (Std.OrientedCmp.isLE_antisymm first second)
  · rw [Sorted.foldl_insert_eq_of_perm held perm]
  · have apart : entries.Pairwise fun p q => order p.1 q.1 ≠ .eq := distinct.imp fun {p q} different same => by
      rw [eq_of_order p.1 q.1 same, beq_self_eq_true] at different
      cases different
    rw [Sorted.foldl_insertEntry_eq_of_perm held apart perm]

/-- A set put into a set before and after what it holds, and two entries put into a map that has one of their keys. -/
theorem order_lawful_nested :
    set ([set [bytes [1]], present absent, set [bytes [1]]].foldl (fun set x => Sorted.insert order x set) []) =
        set ([present absent, set [bytes [1]], set [bytes [1]]].foldl (fun set x => Sorted.insert order x set) []) ∧
      map ([(map [(absent, absent)], bytes [1]), (seq [], bytes [2])].foldl
          (fun map entry => Sorted.insertEntry order entry.1 entry.2 map) [(seq [], bytes [3])]) =
        map ([(seq [], bytes [2]), (map [(absent, absent)], bytes [1])].foldl
          (fun map entry => Sorted.insertEntry order entry.1 entry.2 map) [(seq [], bytes [3])]) := by
  obtain ⟨-, -, -, -, -, -, sets, maps⟩ := order_lawful
  exact ⟨sets _ _ _ (.swap _ _ _), maps _ _ _ (by decide) (.swap _ _ _)⟩

end StructuralValue
end TypedWire
