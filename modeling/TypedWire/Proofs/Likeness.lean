import TypedWire.Collection
import TypedWire.Proofs.ValueOrder

/-! A value is valid if its containers hold what their shapes allow. Two values are alike if they are the
same up to the scales of decimals and the order in which sets and maps yield what they hold. -/

namespace TypedWire

variable {α : Type}

/-- The lists that stand for containers of a shape. -/
def SeqShape.Holds (shape : SeqShape) (t : Ty) (elements : List t.Value) : Prop :=
  match shape with
  | .array size => elements.length = size
  | .sortedSet => Sorted.Increasing t.order elements
  | .hashSet => elements.Pairwise fun x y => t.equal x y = false
  | _ => True

/-- The lists that stand for maps of a shape. -/
def MapShape.Holds (shape : MapShape) (k : Ty) {β : Type} (entries : List (k.Value × β)) : Prop :=
  match shape with
  | .sorted => Sorted.Increasing (Sorted.byKey k.order) entries
  | .hashed => entries.Pairwise fun p q => k.equal p.1 q.1 = false

/-- Two lists hold the same up to a relation, in whatever order. -/
def HoldSame (R : α → α → Prop) (a b : List α) : Prop :=
  (∀ x ∈ a, ∃ y ∈ b, R x y) ∧ ∀ y ∈ b, ∃ x ∈ a, R x y

/-- How likeness of elements extends to containers: place by place where the shape keeps the order in
which elements came, and as sets elsewhere. -/
def SeqShape.Relates (shape : SeqShape) (R : α → α → Prop) (a b : List α) : Prop :=
  match shape.order with
  | .insertion => List.Forall₂ R a b
  | _ => HoldSame R a b

namespace Ty

/-- Sets hold elements, and maps have keys, of types with an order. -/
def Formed : Ty → Prop
  | .seq shape t => (shape.order ≠ .insertion → t.Ordered) ∧ t.Formed
  | .map _ k v => k.Ordered ∧ k.Formed ∧ v.Formed
  | .option t => t.Formed
  | .pair a b => a.Formed ∧ b.Formed
  | .triple a b c => a.Formed ∧ b.Formed ∧ c.Formed
  | .newtype _ t => t.Formed
  | _ => True

/-- Every container in a value holds what its shape allows. -/
def Valid : (t : Ty) → t.Value → Prop
  | .seq shape t, v => shape.Holds t v ∧ ∀ x ∈ v, t.Valid x
  | .map shape k t, v => shape.Holds k v ∧ ∀ entry ∈ v, k.Valid entry.1 ∧ t.Valid entry.2
  | .option t, v => ∀ x ∈ v, t.Valid x
  | .pair s t, v => s.Valid v.1 ∧ t.Valid v.2
  | .triple s t u, v => s.Valid v.1 ∧ t.Valid v.2.1 ∧ u.Valid v.2.2
  | .newtype _ t, v => t.Valid v
  | _, _ => True

/-- Two values mean the same: decimals are compared as numbers, floating-point numbers by their patterns,
sets and maps by what they hold, and everything else part by part. -/
def Alike : (t : Ty) → t.Value → t.Value → Prop
  | .decimal, a, b => a.value = b.value
  | .seq shape t, a, b => shape.Relates t.Alike a b
  | .map _ k t, a, b => HoldSame (fun p q => k.Alike p.1 q.1 ∧ t.Alike p.2 q.2) a b
  | .option t, a, b => Option.Rel t.Alike a b
  | .pair s t, a, b => s.Alike a.1 b.1 ∧ t.Alike a.2 b.2
  | .triple s t u, a, b => s.Alike a.1 b.1 ∧ t.Alike a.2.1 b.2.1 ∧ u.Alike a.2.2 b.2.2
  | .newtype _ t, a, b => t.Alike a b
  | .int _ _, a, b => a = b
  | .float _, a, b => a = b
  | .bool, a, b => a = b
  | .unit, a, b => a = b
  | .text, a, b => a = b
  | .never, a, b => a = b
  | .char, a, b => a = b
  | .integer, a, b => a = b

end Ty

theorem holdSame_of_forall₂ {R : α → α → Prop} {a b : List α} (placed : List.Forall₂ R a b) :
    HoldSame R a b := by
  induction placed with
  | nil => simp [HoldSame]
  | cons related _ ih =>
    obtain ⟨forth, back⟩ := ih
    constructor
    · rintro x (_ | ⟨_, member⟩)
      · exact ⟨_, by simp, related⟩
      · obtain ⟨y, there, same⟩ := forth x member
        exact ⟨y, List.mem_cons_of_mem _ there, same⟩
    · rintro y (_ | ⟨_, member⟩)
      · exact ⟨_, by simp, related⟩
      · obtain ⟨x, there, same⟩ := back y member
        exact ⟨x, List.mem_cons_of_mem _ there, same⟩

theorem SeqShape.holdSame_of_relates {shape : SeqShape} {R : α → α → Prop} {a b : List α}
    (relates : shape.Relates R a b) : HoldSame R a b := by
  cases shape with
  | sortedSet => exact relates
  | hashSet => exact relates
  | _ => exact holdSame_of_forall₂ relates

theorem SeqShape.relates_iff_holdSame {shape : SeqShape} {R : α → α → Prop} {a b : List α}
    (placeless : shape.order ≠ .insertion) : shape.Relates R a b ↔ HoldSame R a b := by
  cases shape with
  | sortedSet => exact Iff.rfl
  | hashSet => exact Iff.rfl
  | _ => exact absurd rfl placeless

theorem forall₂_congr_mem {R S : α → α → Prop} {a b : List α} (agree : ∀ x ∈ a, ∀ y ∈ b, (R x y ↔ S x y)) :
    List.Forall₂ R a b ↔ List.Forall₂ S a b := by
  induction a generalizing b with
  | nil => cases b <;> simp
  | cons x a ih =>
    cases b with
    | nil => simp
    | cons y b =>
      rw [List.forall₂_cons, List.forall₂_cons, agree x (by simp) y (by simp)]
      refine and_congr_right fun _ => ih fun x' member y' there => ?_
      exact agree x' (List.mem_cons_of_mem _ member) y' (List.mem_cons_of_mem _ there)

/-- Increasing lists that hold the same agree place by place. -/
theorem holdSame_iff_forall₂ {order : α → α → Ordering} [Std.TransCmp order] {R : α → α → Prop} {a b : List α}
    (first : Sorted.Increasing order a) (second : Sorted.Increasing order b)
    (level : ∀ x ∈ a, ∀ y ∈ b, R x y → order x y = .eq) : HoldSame R a b ↔ List.Forall₂ R a b := by
  refine ⟨?_, holdSame_of_forall₂⟩
  rintro ⟨forth, back⟩
  have placed : List.Forall₂ (fun x y => order x y = .eq) a b := by
    refine Sorted.forall₂_of_increasing first second ?_ ?_
    · intro x member
      obtain ⟨y, there, related⟩ := forth x member
      exact ⟨y, there, level x member y there related⟩
    · intro y member
      obtain ⟨x, there, related⟩ := back y member
      exact ⟨x, there, level x there y member related⟩
  -- What `x` is related to in `b` is level with `x`, as its counterpart is, and so is its counterpart.
  have paired : ∀ {x y : α}, x ∈ a → y ∈ b → order x y = .eq → R x y := by
    intro x y member there same
    obtain ⟨y', there', related⟩ := forth x member
    have equal : y = y' := Sorted.Increasing.eq_of_order second there there'
      (Std.TransCmp.eq_trans (Std.OrientedCmp.eq_symm same) (level x member y' there' related))
    rwa [equal]
  exact (forall₂_congr_mem fun x member y there => ⟨level x member y there, paired member there⟩).mpr placed

namespace Ty

/-- On the types whose values can be keys, valid values are alike exactly if their order calls them equal. -/
theorem alike_iff_order (t : Ty) (ordered : t.Ordered) {a b : t.Value} (validA : t.Valid a)
    (validB : t.Valid b) : t.Alike a b ↔ t.order a b = .eq := by
  induction t with
  | float p => exact ordered.elim
  | never => exact a.elim
  | decimal => exact (Decimal.order_eq_iff a b).symm
  | seq shape t ih =>
    obtain ⟨listed, ordered⟩ := ordered
    obtain ⟨holdsA, validA⟩ := validA
    obtain ⟨holdsB, validB⟩ := validB
    have agree : ∀ x ∈ a, ∀ y ∈ b, (t.Alike x y ↔ t.order x y = .eq) := by
      intro x member y there
      exact ih ordered (validA x member) (validB y there)
    have placed : List.Forall₂ t.Alike a b ↔ order (.seq shape t) a b = .eq :=
      (forall₂_congr_mem agree).trans (compareLex_eq_iff t.order a b).symm
    cases shape with
    | hashSet => exact absurd rfl listed
    | sortedSet =>
      have level : ∀ x ∈ a, ∀ y ∈ b, t.Alike x y → t.order x y = .eq := by
        intro x member y there
        exact (agree x member y there).mp
      exact (holdSame_iff_forall₂ holdsA holdsB level).trans placed
    | _ => exact placed
  | map shape k v ihk ihv =>
    obtain ⟨listed, orderedKey, orderedValue⟩ := ordered
    obtain ⟨holdsA, validA⟩ := validA
    obtain ⟨holdsB, validB⟩ := validB
    cases shape with
    | hashed => exact absurd rfl listed
    | sorted =>
      have agree : ∀ p ∈ a, ∀ q ∈ b, ((k.Alike p.1 q.1 ∧ v.Alike p.2 q.2) ↔
          (k.order p.1 q.1).then (v.order p.2 q.2) = .eq) := by
        intro p member q there
        rw [Ordering.then_eq_eq, ihk orderedKey (validA p member).1 (validB q there).1,
          ihv orderedValue (validA p member).2 (validB q there).2]
      have level : ∀ p ∈ a, ∀ q ∈ b, k.Alike p.1 q.1 ∧ v.Alike p.2 q.2 → Sorted.byKey k.order p q = .eq := by
        rintro p member q there ⟨same, -⟩
        exact (ihk orderedKey (validA p member).1 (validB q there).1).mp same
      exact (holdSame_iff_forall₂ holdsA holdsB level).trans
        ((forall₂_congr_mem agree).trans (compareLex_eq_iff _ a b).symm)
  | option t ih =>
    cases a with
    | none => cases b <;> simp [Alike, order, orderOption]
    | some x =>
      cases b with
      | none => simp [Alike, order, orderOption]
      | some y => simpa [Alike, order, orderOption] using ih ordered (validA x rfl) (validB y rfl)
  | pair s t ihs iht =>
    simp only [Alike, order, Ordering.then_eq_eq, ihs ordered.1 validA.1 validB.1,
      iht ordered.2 validA.2 validB.2]
  | triple s t u ihs iht ihu =>
    simp only [Alike, order, Ordering.then_eq_eq, ihs ordered.1 validA.1 validB.1,
      iht ordered.2.1 validA.2.1 validB.2.1, ihu ordered.2.2 validA.2.2 validB.2.2]
  | newtype decl t ih => exact ih ordered validA validB
  | _ => exact Iff.trans (by simp [Alike, equal]) (equal_iff_order _ ordered a b)

theorem not_alike_of_lt (t : Ty) (ordered : t.Ordered) {a b : t.Value} (validA : t.Valid a) (validB : t.Valid b)
    (before : t.order a b = .lt) : ¬t.Alike a b := by
  rw [alike_iff_order t ordered validA validB, before]
  intro level
  cases level

theorem not_alike_of_not_equal (t : Ty) (ordered : t.Ordered) {a b : t.Value} (validA : t.Valid a)
    (validB : t.Valid b) (different : t.equal a b = false) : ¬t.Alike a b := by
  rw [alike_iff_order t ordered validA validB, ← equal_iff_order t ordered, different]
  exact Bool.false_ne_true

end Ty

/-- Valid containers that yield their elements in an order of their own are alike place by place. -/
theorem SeqShape.relates_iff_forall₂ {shape : SeqShape} {t : Ty} (unhashed : shape.order ≠ .hashed)
    (ordered : shape.order ≠ .insertion → t.Ordered) {a b : List t.Value} (validA : Ty.Valid (.seq shape t) a)
    (validB : Ty.Valid (.seq shape t) b) : shape.Relates t.Alike a b ↔ List.Forall₂ t.Alike a b := by
  cases shape with
  | hashSet => exact absurd rfl unhashed
  | sortedSet =>
    refine holdSame_iff_forall₂ validA.1 validB.1 fun x member y there => ?_
    exact (t.alike_iff_order (ordered (by decide)) (validA.2 x member) (validB.2 y there)).mp
  | _ => exact Iff.rfl

theorem SeqShape.pairwise_not_alike {t : Ty} (ordered : t.Ordered) {elements : List t.Value}
    (valid : Ty.Valid (.seq .hashSet t) elements) : elements.Pairwise fun x y => ¬t.Alike x y :=
  List.Pairwise.imp_of_mem (fun {x y} memberX memberY different =>
    t.not_alike_of_not_equal ordered (valid.2 x memberX) (valid.2 y memberY) different) valid.1

/-- The keys of a map are not alike. -/
theorem MapShape.pairwise_not_alike {shape : MapShape} {k t : Ty} (ordered : k.Ordered)
    {entries : List (k.Value × t.Value)} (valid : Ty.Valid (.map shape k t) entries) :
    entries.Pairwise fun p q => ¬k.Alike p.1 q.1 := by
  obtain ⟨holds, valid⟩ := valid
  cases shape with
  | sorted =>
    exact holds.imp_of_mem fun {p q} memberP memberQ before =>
      k.not_alike_of_lt ordered (valid p memberP).1 (valid q memberQ).1 before
  | hashed =>
    exact holds.imp_of_mem fun {p q} memberP memberQ different =>
      k.not_alike_of_not_equal ordered (valid p memberP).1 (valid q memberQ).1 different

end TypedWire
