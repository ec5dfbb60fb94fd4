import TypedWire.Proofs.Likeness

namespace TypedWire

section Folds

variable {α β : Type}

private theorem mem_of_mem_foldl {put : List α → α → List α}
    (step : ∀ {set : List α} {x z : α}, z ∈ put set x → z = x ∨ z ∈ set) {elements : List α} {z : α}
    (member : z ∈ elements.foldl put []) : z ∈ elements := by
  suffices general : ∀ done : List α, z ∈ elements.foldl put done → z ∈ done ∨ z ∈ elements by
    simpa using general [] member
  clear member
  induction elements with
  | nil => exact fun done member => .inl member
  | cons x rest ih =>
    intro done member
    rcases ih _ member with there | later
    · rcases step there with rfl | before
      · exact .inr (by simp)
      · exact .inl before
    · exact .inr (List.mem_cons_of_mem _ later)

private theorem length_foldl_le {put : List α → β → List α}
    (step : ∀ (set : List α) (x : β), (put set x).length ≤ set.length + 1) (elements : List β) :
    (elements.foldl put []).length ≤ elements.length := by
  suffices general : ∀ done : List α, (elements.foldl put done).length ≤ done.length + elements.length by
    simpa using general []
  induction elements with
  | nil => simp
  | cons x rest ih =>
    intro done
    have onward := ih (put done x)
    have here := step done x
    rw [List.foldl_cons, List.length_cons]
    omega

end Folds

namespace SeqShape

variable {shape : SeqShape} {t : Ty} {elements container : List t.Value}

theorem eq_of_gather (listed : shape.order = .insertion) (gathers : shape.gather t elements = .ok container) :
    container = elements := by
  cases shape with
  | array size =>
    unfold gather at gathers
    by_cases sized : elements.length = size
    · simp only [if_pos sized] at gathers
      cases gathers
      rfl
    · simp [sized] at gathers
  | sortedSet => cases listed
  | hashSet => cases listed
  | _ =>
    cases gathers
    rfl

theorem ne_of_gather {mismatch : CountMismatch} (refuses : shape.gather t elements = .error mismatch) :
    mismatch.found ≠ mismatch.expected := by
  cases shape with
  | array size =>
    unfold gather at refuses
    by_cases sized : elements.length = size
    · simp [sized] at refuses
    · simp only [if_neg sized] at refuses
      cases refuses
      exact sized
  | _ => cases refuses

theorem mem_of_gather (gathers : shape.gather t elements = .ok container) {x : t.Value} (member : x ∈ container) :
    x ∈ elements := by
  cases shape with
  | sortedSet =>
    cases gathers
    exact mem_of_mem_foldl Sorted.mem_of_mem_insert member
  | hashSet =>
    cases gathers
    exact mem_of_mem_foldl Hashed.mem_of_mem_insert member
  | _ => exact eq_of_gather rfl gathers ▸ member

theorem length_of_gather (gathers : shape.gather t elements = .ok container) :
    container.length ≤ elements.length := by
  cases shape with
  | sortedSet =>
    cases gathers
    exact length_foldl_le (fun set x => Sorted.length_insert_le x set) elements
  | hashSet =>
    cases gathers
    exact length_foldl_le (fun set x => Hashed.length_insert_le x set) elements
  | _ => rw [eq_of_gather rfl gathers]

/-- A container that has taken in some elements holds what its shape allows. -/
theorem holds_of_gather (ordered : shape.order ≠ .insertion → t.Ordered)
    (gathers : shape.gather t elements = .ok container) : shape.Holds t container := by
  cases shape with
  | array size =>
    unfold gather at gathers
    by_cases sized : elements.length = size
    · simp only [if_pos sized] at gathers
      cases gathers
      exact sized
    · simp [sized] at gathers
  | sortedSet =>
    cases gathers
    exact Sorted.foldl_insert_is_increasing elements
  | hashSet =>
    cases gathers
    have symmetric := Ty.equal_comm (ordered (by decide))
    refine List.foldlRecOn elements _ .nil fun set distinct x _ => ?_
    exact Hashed.insert_distinct symmetric distinct
  | _ => trivial

end SeqShape

namespace MapShape

variable {k : Ty} {β : Type}

/-- The shape of the set of the keys. -/
def keyShape : MapShape → SeqShape
  | .sorted => .sortedSet
  | .hashed => .hashSet

theorem holds_iff_keys (shape : MapShape) (entries : List (k.Value × β)) :
    shape.Holds k entries ↔ shape.keyShape.Holds k (entries.map Prod.fst) := by
  cases shape with
  | sorted => exact (List.pairwise_map (R := fun x y => k.order x y = .lt)).symm
  | hashed => exact (List.pairwise_map (R := fun x y => k.equal x y = false)).symm

/-- The keys that a map holds are what the set of its keys makes of them. -/
theorem gather_keys (shape : MapShape) (entries : List (k.Value × β)) :
    shape.keyShape.gather k (entries.map Prod.fst) = .ok ((shape.insertAll k [] entries).map Prod.fst) := by
  cases shape with
  | sorted =>
    have step := fun (set : List (k.Value × β)) (entry : k.Value × β) =>
      (@Sorted.keys_insertEntry β k.Value k.order entry.1 entry.2 set).symm
    refine congrArg Except.ok (List.foldl_map.trans ?_)
    exact @List.foldl_hom _ _ _ _ (MapShape.insert .sorted k)
      (fun set entry => Sorted.insert k.order entry.1 set) entries [] step
  | hashed =>
    have step := fun (set : List (k.Value × β)) (entry : k.Value × β) =>
      (@Hashed.keys_insertEntry β k.Value k.equal entry.1 entry.2 set).symm
    refine congrArg Except.ok (List.foldl_map.trans ?_)
    exact @List.foldl_hom _ _ _ _ (MapShape.insert .hashed k)
      (fun set entry => Hashed.insert k.equal entry.1 set) entries [] step

theorem value_of_mem_insertAll {shape : MapShape} {entries : List (k.Value × β)} {p : k.Value × β}
    (member : p ∈ shape.insertAll k [] entries) : ∃ q ∈ entries, q.2 = p.2 := by
  have step : ∀ (set : List (k.Value × β)) (x : k.Value × β) {p : k.Value × β}, p ∈ shape.insert k set x →
      p.2 = x.2 ∨ ∃ q ∈ set, q.2 = p.2 := by
    intro set x p member
    cases shape with
    | sorted => exact Sorted.value_of_mem_insertEntry member
    | hashed => exact Hashed.value_of_mem_insertEntry member
  suffices general : ∀ done : List (k.Value × β), p ∈ shape.insertAll k done entries →
      (∃ q ∈ done, q.2 = p.2) ∨ ∃ q ∈ entries, q.2 = p.2 by
    simpa using general [] member
  clear member
  induction entries with
  | nil => exact fun done member => .inl ⟨p, member, rfl⟩
  | cons x rest ih =>
    intro done member
    rcases ih _ member with ⟨q, there, same⟩ | ⟨q, later, same⟩
    · rcases step done x there with here | ⟨q', before, same'⟩
      · exact .inr ⟨x, by simp, (same.symm.trans here).symm⟩
      · exact .inl ⟨q', before, same'.trans same⟩
    · exact .inr ⟨q, List.mem_cons_of_mem _ later, same⟩

end MapShape

/-- The elements of a valid container fill one of its shape with themselves. -/
theorem SeqShape.gather_of_holds {shape : SeqShape} {t : Ty} (ordered : shape.order ≠ .insertion → t.Ordered)
    {elements : List t.Value} (holds : shape.Holds t elements) : shape.gather t elements = .ok elements := by
  cases shape with
  | array size => exact if_pos holds
  | sortedSet => exact congrArg Except.ok (Sorted.foldl_insert_increasing holds)
  | hashSet =>
    have distinct : elements.Pairwise fun x y => t.equal y x = false := holds.imp fun different =>
      (Ty.equal_comm (ordered (by decide)) _ _).trans different
    exact congrArg Except.ok (Hashed.foldl_insert_distinct distinct)
  | _ => rfl

/-- The entries of a valid map fill one of its shape with themselves. -/
theorem MapShape.insertAll_of_holds {shape : MapShape} {k : Ty} {β : Type} (ordered : k.Ordered)
    {entries : List (k.Value × β)} (holds : shape.Holds k entries) : shape.insertAll k [] entries = entries := by
  cases shape with
  | sorted =>
    have distinct : entries.Pairwise fun p q => k.order p.1 q.1 ≠ .eq := holds.imp fun {p q} before same => by
      rw [Sorted.byKey, same] at before
      cases before
    exact (Sorted.foldl_insertEntry_eq distinct).trans (Sorted.foldl_insert_increasing holds)
  | hashed =>
    have distinct : entries.Pairwise fun p q => k.equal q.1 p.1 = false := holds.imp fun different =>
      (Ty.equal_comm ordered _ _).trans different
    exact Hashed.foldl_insertEntry_distinct distinct

end TypedWire
