import TypedWire.StructuralValue
import TypedWire.Proofs.Insertion

namespace TypedWire.StructuralValue

/-! ### The order is lawful -/

private def bytesOrder : List Byte → List Byte → Ordering :=
  List.compareLex fun x y => compare x.toNat y.toNat

private instance : Std.TransCmp fun x y : Byte => compare x.toNat y.toNat where
  eq_swap := Std.OrientedOrd.eq_swap
  isLE_trans := Std.TransOrd.isLE_trans

private instance : Std.LawfulEqCmp fun x y : Byte => compare x.toNat y.toNat where
  compare_self := Std.ReflOrd.compare_self
  eq_of_compare same := BitVec.eq_of_toNat_eq (Std.LawfulEqOrd.eq_of_compare same)

private instance : Std.TransCmp bytesOrder := inferInstanceAs (Std.TransCmp (List.compareLex _))

private instance : Std.LawfulEqCmp bytesOrder := inferInstanceAs (Std.LawfulEqCmp (List.compareLex _))

private theorem order_bytes (a b : List Byte) : order (bytes a) (bytes b) = bytesOrder a b := rfl

mutual

theorem order_self (a : StructuralValue) : order a a = .eq := by
  cases a with
  | bytes a => rw [order_bytes]; exact Std.ReflCmp.compare_self
  | tuple a => exact orderLists_self a
  | absent => rfl
  | present a => exact order_self a
  | seq a => exact orderLists_self a
  | set a => exact orderLists_self a
  | map a => exact orderEntryLists_self a

theorem orderLists_self (as : List StructuralValue) : orderLists as as = .eq := by
  cases as with
  | nil => rfl
  | cons a as => simp [orderLists, order_self a, orderLists_self as]

theorem orderEntries_self (a : StructuralValue × StructuralValue) : orderEntries a a = .eq := by
  obtain ⟨k, v⟩ := a
  simp [orderEntries, order_self k, order_self v]

theorem orderEntryLists_self (as : List (StructuralValue × StructuralValue)) :
    orderEntryLists as as = .eq := by
  cases as with
  | nil => rfl
  | cons a as => simp [orderEntryLists, orderEntries_self a, orderEntryLists_self as]

end

mutual

/-- Stand-ins that compare equal are equal. -/
theorem eq_of_order (a b : StructuralValue) (same : order a b = .eq) : a = b := by
  cases a with
  | bytes a =>
    cases b with
    | bytes b => exact congrArg bytes (Std.LawfulEqCmp.eq_of_compare (order_bytes a b ▸ same))
    | _ => simp [order, rank] at same
  | tuple a =>
    cases b with
    | tuple b => exact congrArg tuple (eq_of_orderLists a b same)
    | _ => simp [order, rank] at same
  | absent =>
    cases b with
    | absent => rfl
    | _ => simp [order, rank] at same
  | present a =>
    cases b with
    | present b => exact congrArg present (eq_of_order a b same)
    | _ => simp [order, rank] at same
  | seq a =>
    cases b with
    | seq b => exact congrArg seq (eq_of_orderLists a b same)
    | _ => simp [order, rank] at same
  | set a =>
    cases b with
    | set b => exact congrArg set (eq_of_orderLists a b same)
    | _ => simp [order, rank] at same
  | map a =>
    cases b with
    | map b => exact congrArg map (eq_of_orderEntryLists a b same)
    | _ => simp [order, rank] at same
termination_by structural a

theorem eq_of_orderLists (as bs : List StructuralValue) (same : orderLists as bs = .eq) : as = bs := by
  cases as with
  | nil => cases bs <;> simp_all [orderLists]
  | cons a as =>
    cases bs with
    | nil => simp [orderLists] at same
    | cons b bs =>
      obtain ⟨head, tail⟩ := Ordering.then_eq_eq.mp (by simpa [orderLists] using same)
      rw [eq_of_order a b head, eq_of_orderLists as bs tail]
termination_by structural as

theorem eq_of_orderEntries (a b : StructuralValue × StructuralValue) (same : orderEntries a b = .eq) :
    a = b := by
  obtain ⟨k, v⟩ := a
  obtain ⟨l, w⟩ := b
  obtain ⟨keys, values⟩ := Ordering.then_eq_eq.mp same
  rw [eq_of_order k l keys, eq_of_order v w values]
termination_by structural a

theorem eq_of_orderEntryLists (as bs : List (StructuralValue × StructuralValue))
    (same : orderEntryLists as bs = .eq) : as = bs := by
  cases as with
  | nil => cases bs <;> simp_all [orderEntryLists]
  | cons a as =>
    cases bs with
    | nil => simp [orderEntryLists] at same
    | cons b bs =>
      obtain ⟨head, tail⟩ := Ordering.then_eq_eq.mp (by simpa [orderEntryLists] using same)
      rw [eq_of_orderEntries a b head, eq_of_orderEntryLists as bs tail]
termination_by structural as

end

mutual

theorem order_swap (a b : StructuralValue) : order a b = (order b a).swap := by
  cases a with
  | bytes a =>
    cases b with
    | bytes b => rw [order_bytes, order_bytes]; exact Std.OrientedCmp.eq_swap
    | _ => rfl
  | tuple a =>
    cases b with
    | tuple b => exact orderLists_swap a b
    | _ => rfl
  | absent => cases b <;> rfl
  | present a =>
    cases b with
    | present b => exact order_swap a b
    | _ => rfl
  | seq a =>
    cases b with
    | seq b => exact orderLists_swap a b
    | _ => rfl
  | set a =>
    cases b with
    | set b => exact orderLists_swap a b
    | _ => rfl
  | map a =>
    cases b with
    | map b => exact orderEntryLists_swap a b
    | _ => rfl
termination_by structural a

theorem orderLists_swap (as bs : List StructuralValue) : orderLists as bs = (orderLists bs as).swap := by
  cases as with
  | nil => cases bs <;> rfl
  | cons a as =>
    cases bs with
    | nil => rfl
    | cons b bs => simp only [orderLists, Ordering.swap_then, ← order_swap a b, ← orderLists_swap as bs]
termination_by structural as

theorem orderEntries_swap (a b : StructuralValue × StructuralValue) :
    orderEntries a b = (orderEntries b a).swap := by
  obtain ⟨k, v⟩ := a
  obtain ⟨l, w⟩ := b
  simp only [orderEntries, Ordering.swap_then, ← order_swap k l, ← order_swap v w]
termination_by structural a

theorem orderEntryLists_swap (as bs : List (StructuralValue × StructuralValue)) :
    orderEntryLists as bs = (orderEntryLists bs as).swap := by
  cases as with
  | nil => cases bs <;> rfl
  | cons a as =>
    cases bs with
    | nil => rfl
    | cons b bs =>
      simp only [orderEntryLists, Ordering.swap_then, ← orderEntries_swap a b, ← orderEntryLists_swap as bs]
termination_by structural as

end

/-- Two comparisons made one after the other are transitive where each of them is and equality in the
first is equality. -/
private theorem then_lt_trans {α : Type} {order : α → α → Ordering}
    (lawful : ∀ {x y}, order x y = .eq → x = y) {a b c : α} {ab bc ac : Ordering}
    (trans : order a b = .lt → order b c = .lt → order a c = .lt) (onward : ab = .lt → bc = .lt → ac = .lt)
    (first : (order a b).then ab = .lt) (second : (order b c).then bc = .lt) :
    (order a c).then ac = .lt := by
  rcases Ordering.then_eq_lt.mp first with lower | ⟨same, lower⟩
  · rcases Ordering.then_eq_lt.mp second with upper | ⟨same', upper⟩
    · rw [trans lower upper]; rfl
    · rw [← lawful same', lower]; rfl
  · rcases Ordering.then_eq_lt.mp second with upper | ⟨same', upper⟩
    · rw [lawful same, upper]; rfl
    · rw [lawful same, same', onward lower upper]; rfl

/-- A stand-in that comes before another has a kind that does not come after. -/
private theorem rank_le_of_order {a b : StructuralValue} (lower : order a b = .lt) : a.rank ≤ b.rank := by
  cases a <;> cases b <;> simp_all [order, rank, Nat.compare_eq_lt]

private theorem order_of_rank_lt {a b : StructuralValue} (below : a.rank < b.rank) : order a b = .lt := by
  cases a <;> cases b <;> simp_all [order, rank, Nat.compare_eq_lt]

mutual

theorem order_lt_trans (a b c : StructuralValue) (first : order a b = .lt) (second : order b c = .lt) :
    order a c = .lt := by
  have le₁ := rank_le_of_order first
  have le₂ := rank_le_of_order second
  by_cases below : a.rank < c.rank
  · exact order_of_rank_lt below
  -- All three are of one kind.
  have ab : a.rank = b.rank := by omega
  have bc : b.rank = c.rank := by omega
  cases a with
  | bytes a =>
    cases b with
    | bytes b =>
      cases c with
      | bytes c => rw [order_bytes] at *; exact Std.TransCmp.lt_trans first second
      | _ => simp [rank] at bc
    | _ => simp [rank] at ab
  | tuple a =>
    cases b with
    | tuple b =>
      cases c with
      | tuple c => exact orderLists_lt_trans a b c first second
      | _ => simp [rank] at bc
    | _ => simp [rank] at ab
  | absent =>
    cases b with
    | absent => simp [order] at first
    | _ => simp [rank] at ab
  | present a =>
    cases b with
    | present b =>
      cases c with
      | present c => exact order_lt_trans a b c first second
      | _ => simp [rank] at bc
    | _ => simp [rank] at ab
  | seq a =>
    cases b with
    | seq b =>
      cases c with
      | seq c => exact orderLists_lt_trans a b c first second
      | _ => simp [rank] at bc
    | _ => simp [rank] at ab
  | set a =>
    cases b with
    | set b =>
      cases c with
      | set c => exact orderLists_lt_trans a b c first second
      | _ => simp [rank] at bc
    | _ => simp [rank] at ab
  | map a =>
    cases b with
    | map b =>
      cases c with
      | map c => exact orderEntryLists_lt_trans a b c first second
      | _ => simp [rank] at bc
    | _ => simp [rank] at ab
termination_by structural a

theorem orderLists_lt_trans (as bs cs : List StructuralValue) (first : orderLists as bs = .lt)
    (second : orderLists bs cs = .lt) : orderLists as cs = .lt := by
  cases as with
  | nil => cases bs <;> cases cs <;> simp_all [orderLists]
  | cons a as =>
    cases bs with
    | nil => simp [orderLists] at first
    | cons b bs =>
      cases cs with
      | nil => simp [orderLists] at second
      | cons c cs =>
        exact then_lt_trans (eq_of_order _ _) (order_lt_trans a b c) (orderLists_lt_trans as bs cs)
          first second
termination_by structural as

theorem orderEntries_lt_trans (a b c : StructuralValue × StructuralValue) (first : orderEntries a b = .lt)
    (second : orderEntries b c = .lt) : orderEntries a c = .lt := by
  obtain ⟨k, v⟩ := a
  obtain ⟨l, w⟩ := b
  obtain ⟨m, x⟩ := c
  exact then_lt_trans (eq_of_order _ _) (order_lt_trans k l m) (order_lt_trans v w x) first second
termination_by structural a

theorem orderEntryLists_lt_trans (as bs cs : List (StructuralValue × StructuralValue))
    (first : orderEntryLists as bs = .lt) (second : orderEntryLists bs cs = .lt) :
    orderEntryLists as cs = .lt := by
  cases as with
  | nil => cases bs <;> cases cs <;> simp_all [orderEntryLists]
  | cons a as =>
    cases bs with
    | nil => simp [orderEntryLists] at first
    | cons b bs =>
      cases cs with
      | nil => simp [orderEntryLists] at second
      | cons c cs =>
        exact then_lt_trans (eq_of_orderEntries _ _) (orderEntries_lt_trans a b c)
          (orderEntryLists_lt_trans as bs cs) first second
termination_by structural as

end

instance : Std.TransCmp order where
  eq_swap := order_swap _ _
  isLE_trans {a b c} first second := by
    rcases Ordering.isLE_iff_eq_lt_or_eq_eq.mp first with lower | same
    · rcases Ordering.isLE_iff_eq_lt_or_eq_eq.mp second with upper | same
      · rw [order_lt_trans a b c lower upper]; rfl
      · rwa [← eq_of_order b c same]
    · rwa [eq_of_order a b same]

instance : Std.LawfulEqCmp order where
  compare_self := order_self _
  eq_of_compare := eq_of_order _ _

theorem order_eq_iff (a b : StructuralValue) : order a b = .eq ↔ a = b := Std.LawfulEqCmp.compare_eq_iff_eq

/-! ### Equality part by part -/

mutual

theorem equal_iff (a b : StructuralValue) : a.equal b = true ↔ a = b := by
  cases a with
  | bytes a => cases b <;> simp [equal]
  | tuple a => cases b <;> simp [equal, equalLists_iff a]
  | absent => cases b <;> simp [equal]
  | present a => cases b <;> simp [equal, equal_iff a]
  | seq a => cases b <;> simp [equal, equalLists_iff a]
  | set a => cases b <;> simp [equal, equalLists_iff a]
  | map a => cases b <;> simp [equal, equalEntryLists_iff a]
termination_by structural a

theorem equalLists_iff (as bs : List StructuralValue) : equalLists as bs = true ↔ as = bs := by
  cases as with
  | nil => cases bs <;> simp [equalLists]
  | cons a as => cases bs <;> simp [equalLists, equal_iff a, equalLists_iff as]
termination_by structural as

theorem equalEntries_iff (a b : StructuralValue × StructuralValue) : equalEntries a b = true ↔ a = b := by
  obtain ⟨k, v⟩ := a
  obtain ⟨l, w⟩ := b
  simp [equalEntries, equal_iff k, equal_iff v]
termination_by structural a

theorem equalEntryLists_iff (as bs : List (StructuralValue × StructuralValue)) :
    equalEntryLists as bs = true ↔ as = bs := by
  cases as with
  | nil => cases bs <;> simp [equalEntryLists]
  | cons a as => cases bs <;> simp [equalEntryLists, equalEntries_iff a, equalEntryLists_iff as]
termination_by structural as

end

instance : LawfulBEq StructuralValue where
  eq_of_beq {a b} same := (equal_iff a b).mp same
  rfl {a} := (equal_iff a a).mpr rfl

/-! ### The stand-ins of sets and maps -/

/-- The stand-in of a set holds what it was made from. -/
theorem mem_foldl_insert_iff (x : StructuralValue) (elements : List StructuralValue) :
    x ∈ elements.foldl (fun set y => Sorted.insert order y set) [] ↔ x ∈ elements := by
  have members := Sorted.exists_mem_foldl_insert_iff order x elements
  simpa only [order_eq_iff, exists_eq_right'] using members

/-- The stand-ins of sets are the same exactly if they were made from the same elements, however often
and in whatever order these came. -/
theorem setOf_eq_iff (a b : List StructuralValue) : setOf a = setOf b ↔ ∀ x, x ∈ a ↔ x ∈ b := by
  constructor
  · intro same x
    rw [← mem_foldl_insert_iff x a, ← mem_foldl_insert_iff x b, set.inj same]
  · intro same
    refine congrArg set (Sorted.eq_of_increasing (Sorted.foldl_insert_is_increasing a)
      (Sorted.foldl_insert_is_increasing b) fun x => ?_)
    rw [mem_foldl_insert_iff, mem_foldl_insert_iff, same]

/-- The stand-in of a set whose elements all differ has every element. -/
theorem setOf_eq_set {elements : List StructuralValue} (distinct : elements.Pairwise fun x y => x ≠ y) :
    ∃ sorted, setOf elements = .set sorted ∧ sorted.Perm elements := by
  refine ⟨_, rfl, Sorted.foldl_insert_perm ?_⟩
  exact distinct.imp fun {x y} different same => different (eq_of_order x y same)

private theorem distinct_byKey {entries : List (StructuralValue × StructuralValue)}
    (distinct : entries.Pairwise fun p q => p.1 ≠ q.1) :
    entries.Pairwise fun p q => Sorted.byKey order p q ≠ .eq :=
  distinct.imp fun {p q} different same => different (eq_of_order p.1 q.1 same)

/-- The stand-in of a map whose keys all differ has every entry, in increasing order of the keys. -/
theorem mapOf_eq_map {entries : List (StructuralValue × StructuralValue)}
    (distinct : entries.Pairwise fun p q => p.1 ≠ q.1) :
    ∃ sorted, mapOf entries = .map sorted ∧ sorted.Perm entries ∧
      Sorted.Increasing (Sorted.byKey order) sorted := by
  refine ⟨_, congrArg map (Sorted.foldl_insertEntry_eq (distinct_byKey distinct)), ?_, ?_⟩
  · exact Sorted.foldl_insert_perm (distinct_byKey distinct)
  · exact Sorted.foldl_insert_is_increasing entries

/-- The stand-ins of maps whose keys all differ are the same exactly if they were made from the same
entries, in whatever order these came. -/
theorem mapOf_eq_iff {a b : List (StructuralValue × StructuralValue)}
    (first : a.Pairwise fun p q => p.1 ≠ q.1) (second : b.Pairwise fun p q => p.1 ≠ q.1) :
    mapOf a = mapOf b ↔ ∀ x, x ∈ a ↔ x ∈ b := by
  obtain ⟨sortedA, madeA, permA, increasingA⟩ := mapOf_eq_map first
  obtain ⟨sortedB, madeB, permB, increasingB⟩ := mapOf_eq_map second
  rw [madeA, madeB]
  constructor
  · intro same x
    rw [← permA.mem_iff, ← permB.mem_iff, map.inj same]
  · intro same
    refine congrArg map (Sorted.eq_of_increasing increasingA increasingB fun x => ?_)
    rw [permA.mem_iff, permB.mem_iff, same]

end TypedWire.StructuralValue
