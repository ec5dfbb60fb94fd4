import TypedWire.Proofs.Gathering

/-! Decimals arrive in normal form, so a value that is read back is the one written with its decimals
settled. A value reorders into another if the two differ only in the order in which hashed containers inside
them yield what they hold. -/

namespace TypedWire

variable {α : Type}

namespace Ty

/-- Every decimal in a value has a normal form with a 64-bit scale. -/
def ScalesFit : (t : Ty) → t.Value → Prop
  | .decimal, v => v.ScaleFits
  | .seq _ t, v => ∀ x ∈ v, t.ScalesFit x
  | .map _ k t, v => ∀ entry ∈ v, k.ScalesFit entry.1 ∧ t.ScalesFit entry.2
  | .option t, v => ∀ x ∈ v, t.ScalesFit x
  | .pair s t, v => s.ScalesFit v.1 ∧ t.ScalesFit v.2
  | .triple s t u, v => s.ScalesFit v.1 ∧ t.ScalesFit v.2.1 ∧ u.ScalesFit v.2.2
  | .newtype _ t, v => t.ScalesFit v
  | _, _ => True

/-- The value with every decimal in normal form that has one. -/
def settle : (t : Ty) → t.Value → t.Value
  | .decimal, v => v.normal.getD v
  | .seq _ t, v => v.map t.settle
  | .map _ k t, v => v.map fun entry => (k.settle entry.1, t.settle entry.2)
  | .option t, v => v.map t.settle
  | .pair s t, v => (s.settle v.1, t.settle v.2)
  | .triple s t u, v => (s.settle v.1, t.settle v.2.1, u.settle v.2.2)
  | .newtype _ t, v => t.settle v
  | .int _ _, v => v
  | .float _, v => v
  | .bool, v => v
  | .unit, v => v
  | .text, v => v
  | .never, v => v
  | .char, v => v
  | .integer, v => v

/-- Two values are the same but for the orders in which hashed containers inside them yield what they
hold. -/
def Reorders : (t : Ty) → t.Value → t.Value → Prop
  | .seq .hashSet t, a, b => ∃ arranged : List t.Value, a.Perm arranged ∧ List.Forall₂ t.Reorders arranged b
  | .seq _ t, a, b => List.Forall₂ t.Reorders a b
  | .map .hashed k t, a, b => ∃ arranged : List (k.Value × t.Value), a.Perm arranged ∧
    List.Forall₂ (fun p q => k.Reorders p.1 q.1 ∧ t.Reorders p.2 q.2) arranged b
  | .map .sorted k t, a, b => List.Forall₂ (fun p q => k.Reorders p.1 q.1 ∧ t.Reorders p.2 q.2) a b
  | .option t, a, b => Option.Rel t.Reorders a b
  | .pair s t, a, b => s.Reorders a.1 b.1 ∧ t.Reorders a.2 b.2
  | .triple s t u, a, b => s.Reorders a.1 b.1 ∧ t.Reorders a.2.1 b.2.1 ∧ u.Reorders a.2.2 b.2.2
  | .newtype _ t, a, b => t.Reorders a b
  | .int _ _, a, b => a = b
  | .float _, a, b => a = b
  | .bool, a, b => a = b
  | .unit, a, b => a = b
  | .text, a, b => a = b
  | .never, a, b => a = b
  | .char, a, b => a = b
  | .integer, a, b => a = b
  | .decimal, a, b => a = b

/-- The types without hashed containers. -/
def Unhashed : Ty → Prop
  | .seq shape t => shape ≠ .hashSet ∧ t.Unhashed
  | .map shape k v => shape ≠ .hashed ∧ k.Unhashed ∧ v.Unhashed
  | .option t => t.Unhashed
  | .pair a b => a.Unhashed ∧ b.Unhashed
  | .triple a b c => a.Unhashed ∧ b.Unhashed ∧ c.Unhashed
  | .newtype _ t => t.Unhashed
  | _ => True

/-! ### Settling -/

/-- A key is level with what becomes of it. -/
theorem order_settle (t : Ty) (ordered : t.Ordered) (v : t.Value) : t.order v (t.settle v) = .eq := by
  induction t with
  | decimal => exact (Decimal.order_eq_iff _ _).mpr v.value_getD_normal.symm
  | seq shape t ih =>
    refine (compareLex_eq_iff t.order _ _).mpr (List.forall₂_map_right_iff.mpr ?_)
    exact List.forall₂_same.mpr fun x member => ih ordered.2 x
  | map shape k t ihk iht =>
    refine (compareLex_eq_iff _ _ _).mpr (List.forall₂_map_right_iff.mpr ?_)
    refine List.forall₂_same.mpr fun entry member => ?_
    rw [Ordering.then_eq_eq]
    exact ⟨ihk ordered.2.1 entry.1, iht ordered.2.2 entry.2⟩
  | option t ih =>
    cases v with
    | none => rfl
    | some x => exact ih ordered x
  | pair s t ihs iht => exact Ordering.then_eq_eq.mpr ⟨ihs ordered.1 v.1, iht ordered.2 v.2⟩
  | triple s t u ihs iht ihu =>
    exact Ordering.then_eq_eq.mpr ⟨ihs ordered.1 v.1,
      Ordering.then_eq_eq.mpr ⟨iht ordered.2.1 v.2.1, ihu ordered.2.2 v.2.2⟩⟩
  | newtype decl t ih => exact ih ordered v
  | _ => exact order_self _ v

theorem order_settle_settle (t : Ty) (ordered : t.Ordered) (a b : t.Value) :
    t.order (t.settle a) (t.settle b) = t.order a b := by
  rw [← Std.TransCmp.congr_left (order_settle t ordered a)]
  exact (Std.TransCmp.congr_right (order_settle t ordered b)).symm

theorem equal_settle_settle (t : Ty) (ordered : t.Ordered) (a b : t.Value) :
    t.equal (t.settle a) (t.settle b) = t.equal a b := by
  rw [Bool.eq_iff_iff, equal_iff_order t ordered, equal_iff_order t ordered, order_settle_settle t ordered]

/-- A value is alike to what becomes of it. -/
theorem alike_settle (t : Ty) (v : t.Value) : t.Alike v (t.settle v) := by
  induction t with
  | decimal => exact v.value_getD_normal.symm
  | seq shape t ih =>
    have placed : List.Forall₂ t.Alike v (v.map t.settle) :=
      List.forall₂_map_right_iff.mpr (List.forall₂_same.mpr fun x member => ih x)
    cases shape with
    | sortedSet => exact holdSame_of_forall₂ placed
    | hashSet => exact holdSame_of_forall₂ placed
    | _ => exact placed
  | map shape k t ihk iht =>
    refine holdSame_of_forall₂ (List.forall₂_map_right_iff.mpr (List.forall₂_same.mpr ?_))
    exact fun entry member => ⟨ihk entry.1, iht entry.2⟩
  | option t ih =>
    cases v with
    | none => exact .none
    | some x => exact .some (ih x)
  | pair s t ihs iht => exact ⟨ihs v.1, iht v.2⟩
  | triple s t u ihs iht ihu => exact ⟨ihs v.1, iht v.2.1, ihu v.2.2⟩
  | newtype decl t ih => exact ih v
  | _ => rfl

theorem scalesFit_settle (t : Ty) {v : t.Value} (fit : t.ScalesFit v) : t.ScalesFit (t.settle v) := by
  induction t with
  | decimal => exact Decimal.scaleFits_congr v.value_getD_normal.symm fit
  | seq shape t ih =>
    rintro x member
    obtain ⟨y, there, rfl⟩ := List.mem_map.mp member
    exact ih (fit y there)
  | map shape k t ihk iht =>
    rintro x member
    obtain ⟨entry, there, rfl⟩ := List.mem_map.mp member
    exact ⟨ihk (fit entry there).1, iht (fit entry there).2⟩
  | option t ih =>
    rintro x member
    obtain ⟨y, there, rfl⟩ := Option.map_eq_some_iff.mp member
    exact ih (fit y there)
  | pair s t ihs iht => exact ⟨ihs fit.1, iht fit.2⟩
  | triple s t u ihs iht ihu => exact ⟨ihs fit.1, iht fit.2.1, ihu fit.2.2⟩
  | newtype decl t ih => exact ih fit
  | _ => trivial

theorem holds_settle {shape : SeqShape} {t : Ty} (ordered : shape.order ≠ .insertion → t.Ordered)
    {elements : List t.Value} (holds : shape.Holds t elements) : shape.Holds t (elements.map t.settle) := by
  cases shape with
  | array size => exact (List.length_map _).trans holds
  | sortedSet =>
    refine List.pairwise_map.mpr (holds.imp fun {x y} before => ?_)
    rwa [order_settle_settle t (ordered (by decide))]
  | hashSet =>
    refine List.pairwise_map.mpr (holds.imp fun {x y} different => ?_)
    rwa [equal_settle_settle t (ordered (by decide))]
  | _ => trivial

theorem map_holds_settle {shape : MapShape} {k t : Ty} (ordered : k.Ordered)
    {entries : List (k.Value × t.Value)} (holds : shape.Holds k entries) :
    shape.Holds k (entries.map fun entry => (k.settle entry.1, t.settle entry.2)) := by
  cases shape with
  | sorted =>
    exact List.pairwise_map.mpr (holds.imp fun {p q} before => (order_settle_settle k ordered p.1 q.1).trans before)
  | hashed =>
    exact List.pairwise_map.mpr (holds.imp fun {p q} apart => (equal_settle_settle k ordered p.1 q.1).trans apart)

/-- What becomes of a valid value is valid. -/
theorem valid_settle (t : Ty) (formed : t.Formed) {v : t.Value} (valid : t.Valid v) : t.Valid (t.settle v) := by
  induction t with
  | seq shape t ih =>
    refine ⟨holds_settle formed.1 valid.1, ?_⟩
    rintro x member
    obtain ⟨y, there, rfl⟩ := List.mem_map.mp member
    exact ih formed.2 (valid.2 y there)
  | map shape k t ihk iht =>
    refine ⟨map_holds_settle formed.1 valid.1, ?_⟩
    rintro x member
    obtain ⟨entry, there, rfl⟩ := List.mem_map.mp member
    obtain ⟨validKey, validValue⟩ := valid.2 entry there
    exact ⟨ihk formed.2.1 validKey, iht formed.2.2 validValue⟩
  | option t ih =>
    rintro x member
    obtain ⟨y, there, rfl⟩ := Option.map_eq_some_iff.mp member
    exact ih formed (valid y there)
  | pair s t ihs iht => exact ⟨ihs formed.1 valid.1, iht formed.2 valid.2⟩
  | triple s t u ihs iht ihu => exact ⟨ihs formed.1 valid.1, iht formed.2.1 valid.2.1, ihu formed.2.2 valid.2.2⟩
  | newtype decl t ih => exact ih formed valid
  | _ => trivial

end Ty

/-! ### Reordering -/

namespace Ty

theorem reorders_refl (t : Ty) (v : t.Value) : t.Reorders v v := by
  induction t with
  | seq shape t ih =>
    have placed : List.Forall₂ t.Reorders v v := List.forall₂_same.mpr fun x _ => ih x
    cases shape with
    | hashSet => exact ⟨v, .refl v, placed⟩
    | _ => exact placed
  | map shape k t ihk iht =>
    have placed : List.Forall₂ (fun p q : k.Value × t.Value => k.Reorders p.1 q.1 ∧ t.Reorders p.2 q.2) v v :=
      List.forall₂_same.mpr fun entry _ => ⟨ihk entry.1, iht entry.2⟩
    cases shape with
    | hashed => exact ⟨v, .refl v, placed⟩
    | sorted => exact placed
  | option t ih =>
    cases v with
    | none => exact .none
    | some x => exact .some (ih x)
  | pair s t ihs iht => exact ⟨ihs v.1, iht v.2⟩
  | triple s t u ihs iht ihu => exact ⟨ihs v.1, iht v.2.1, ihu v.2.2⟩
  | newtype decl t ih => exact ih v
  | _ => rfl

/-- Whatever its shape, a container reorders element by element once its elements have been arranged. -/
theorem arranged_of_reorders_seq {shape : SeqShape} {t : Ty} {a b : List t.Value}
    (reorders : (Ty.seq shape t).Reorders a b) :
    ∃ arranged : List t.Value, a.Perm arranged ∧ List.Forall₂ t.Reorders arranged b := by
  cases shape with
  | hashSet => exact reorders
  | _ => exact ⟨a, .refl a, reorders⟩

theorem arranged_of_reorders_map {shape : MapShape} {k t : Ty} {a b : List (k.Value × t.Value)}
    (reorders : (Ty.map shape k t).Reorders a b) :
    ∃ arranged : List (k.Value × t.Value), a.Perm arranged ∧
      List.Forall₂ (fun p q => k.Reorders p.1 q.1 ∧ t.Reorders p.2 q.2) arranged b := by
  cases shape with
  | hashed => exact reorders
  | sorted => exact ⟨a, .refl a, reorders⟩

private theorem eq_of_forall₂ {R : α → α → Prop} {a b : List α} (same : ∀ x y, R x y → x = y)
    (placed : List.Forall₂ R a b) : a = b :=
  List.forall₂_eq_eq_eq ▸ placed.imp same

theorem unhashed_of_ordered (t : Ty) (ordered : t.Ordered) : t.Unhashed := by
  induction t with
  | seq shape t ih => exact ⟨ordered.1, ih ordered.2⟩
  | map shape k t ihk iht => exact ⟨ordered.1, ihk ordered.2.1, iht ordered.2.2⟩
  | option t ih => exact ih ordered
  | pair s t ihs iht => exact ⟨ihs ordered.1, iht ordered.2⟩
  | triple s t u ihs iht ihu => exact ⟨ihs ordered.1, iht ordered.2.1, ihu ordered.2.2⟩
  | newtype decl t ih => exact ih ordered
  | _ => trivial

/-- Without hashed containers there is nothing that could come in another order. -/
theorem eq_of_unhashed (t : Ty) (unhashed : t.Unhashed) {a b : t.Value} (reorders : t.Reorders a b) : a = b := by
  induction t with
  | seq shape t ih =>
    obtain ⟨listed, unhashed⟩ := unhashed
    cases shape with
    | hashSet => exact absurd rfl listed
    | _ => exact eq_of_forall₂ (fun x y same => ih unhashed same) reorders
  | map shape k t ihk iht =>
    obtain ⟨listed, unhashedKey, unhashedValue⟩ := unhashed
    cases shape with
    | hashed => exact absurd rfl listed
    | sorted =>
      exact eq_of_forall₂ (fun p q same => Prod.ext (ihk unhashedKey same.1) (iht unhashedValue same.2)) reorders
  | option t ih =>
    cases reorders with
    | none => rfl
    | some same => exact congrArg some (ih unhashed same)
  | pair s t ihs iht => exact Prod.ext (ihs unhashed.1 reorders.1) (iht unhashed.2 reorders.2)
  | triple s t u ihs iht ihu =>
    exact Prod.ext (ihs unhashed.1 reorders.1)
      (Prod.ext (iht unhashed.2.1 reorders.2.1) (ihu unhashed.2.2 reorders.2.2))
  | newtype decl t ih => exact ih unhashed reorders
  | _ => exact reorders

/-- Keys hold nothing that could come in another order. -/
theorem eq_of_reorders (t : Ty) (ordered : t.Ordered) {a b : t.Value} (reorders : t.Reorders a b) : a = b :=
  t.eq_of_unhashed (t.unhashed_of_ordered ordered) reorders

private theorem holdSame_of_perm {R : α → α → Prop} {a arranged b : List α} (perm : a.Perm arranged)
    (placed : List.Forall₂ R arranged b) : HoldSame R a b := by
  obtain ⟨forth, back⟩ := holdSame_of_forall₂ placed
  refine ⟨fun x member => forth x (perm.mem_iff.mp member), fun y member => ?_⟩
  obtain ⟨x, there, related⟩ := back y member
  exact ⟨x, perm.mem_iff.mpr there, related⟩

/-- A reordered value is alike to what it was. -/
theorem alike_of_reorders (t : Ty) {a b : t.Value} (reorders : t.Reorders a b) : t.Alike a b := by
  induction t with
  | decimal => exact congrArg Decimal.value reorders
  | seq shape t ih =>
    cases shape with
    | hashSet =>
      obtain ⟨arranged, perm, placed⟩ := reorders
      exact holdSame_of_perm perm (placed.imp fun x y => ih)
    | sortedSet => exact holdSame_of_forall₂ (List.Forall₂.imp (fun x y => ih) reorders)
    | _ => exact List.Forall₂.imp (fun x y => ih) reorders
  | map shape k t ihk iht =>
    obtain ⟨arranged, perm, placed⟩ := arranged_of_reorders_map reorders
    exact holdSame_of_perm perm (placed.imp fun p q same => ⟨ihk same.1, iht same.2⟩)
  | option t ih =>
    cases reorders with
    | none => exact .none
    | some same => exact .some (ih same)
  | pair s t ihs iht => exact ⟨ihs reorders.1, iht reorders.2⟩
  | triple s t u ihs iht ihu => exact ⟨ihs reorders.1, iht reorders.2.1, ihu reorders.2.2⟩
  | newtype decl t ih => exact ih reorders
  | _ => exact reorders

private theorem forall_of_forall₂ {R : α → α → Prop} {P : α → Prop} {a b : List α}
    (placed : List.Forall₂ R a b) (step : ∀ x y, R x y → P x → P y) (all : ∀ x ∈ a, P x) : ∀ y ∈ b, P y := by
  intro y member
  obtain ⟨x, there, related⟩ := (holdSame_of_forall₂ placed).2 y member
  exact step x y related (all x there)

theorem scalesFit_of_reorders (t : Ty) {a b : t.Value} (reorders : t.Reorders a b) (fit : t.ScalesFit a) :
    t.ScalesFit b := by
  induction t with
  | seq shape t ih =>
    obtain ⟨arranged, perm, placed⟩ := arranged_of_reorders_seq reorders
    exact forall_of_forall₂ placed (fun x y => ih) fun x member => fit x (perm.mem_iff.mpr member)
  | map shape k t ihk iht =>
    obtain ⟨arranged, perm, placed⟩ := arranged_of_reorders_map reorders
    refine forall_of_forall₂ placed ?_ fun entry member => fit entry (perm.mem_iff.mpr member)
    exact fun p q same fit => ⟨ihk same.1 fit.1, iht same.2 fit.2⟩
  | option t ih =>
    cases reorders with
    | none => exact fit
    | some same =>
      rintro x ⟨⟩
      exact ih same (fit _ rfl)
  | pair s t ihs iht => exact ⟨ihs reorders.1 fit.1, iht reorders.2 fit.2⟩
  | triple s t u ihs iht ihu =>
    exact ⟨ihs reorders.1 fit.1, iht reorders.2.1 fit.2.1, ihu reorders.2.2 fit.2.2⟩
  | newtype decl t ih => exact ih reorders fit
  | _ => exact reorders ▸ fit

private theorem map_holds_congr {shape : MapShape} {k : Ty} {β : Type} {a b : List (k.Value × β)}
    (same : a.map Prod.fst = b.map Prod.fst) (holds : shape.Holds k a) : shape.Holds k b := by
  rw [MapShape.holds_iff_keys] at holds ⊢
  rwa [← same]

/-- A reordered value is valid if it was. -/
theorem valid_of_reorders (t : Ty) (formed : t.Formed) {a b : t.Value} (reorders : t.Reorders a b)
    (valid : t.Valid a) : t.Valid b := by
  induction t with
  | seq shape t ih =>
    obtain ⟨ordered, formed⟩ := formed
    obtain ⟨holds, valid⟩ := valid
    obtain ⟨arranged, perm, placed⟩ := arranged_of_reorders_seq reorders
    refine ⟨?_, forall_of_forall₂ placed (fun x y => ih formed) fun x member => valid x (perm.mem_iff.mpr member)⟩
    cases shape with
    | hashSet =>
      have same : arranged = b := eq_of_forall₂ (fun x y => eq_of_reorders t (ordered (by decide))) placed
      have symmetric : ∀ {x y : t.Value}, t.equal x y = false → t.equal y x = false := fun {x y} different =>
        (equal_comm (ordered (by decide)) y x).trans different
      rw [← same]
      exact (perm.pairwise_iff symmetric).mp holds
    | sortedSet =>
      have same : a = b := eq_of_forall₂ (fun x y => eq_of_reorders t (ordered (by decide))) reorders
      rwa [← same]
    | array size => exact (List.Forall₂.length_eq reorders).symm.trans holds
    | _ => trivial
  | map shape k t ihk iht =>
    obtain ⟨ordered, formedKey, formedValue⟩ := formed
    obtain ⟨holds, valid⟩ := valid
    have step : ∀ p q : k.Value × t.Value, k.Reorders p.1 q.1 ∧ t.Reorders p.2 q.2 →
        k.Valid p.1 ∧ t.Valid p.2 → k.Valid q.1 ∧ t.Valid q.2 :=
      fun p q same valid => ⟨ihk formedKey same.1 valid.1, iht formedValue same.2 valid.2⟩
    have keys : ∀ {c d : List (k.Value × t.Value)},
        List.Forall₂ (fun p q => k.Reorders p.1 q.1 ∧ t.Reorders p.2 q.2) c d →
          c.map Prod.fst = d.map Prod.fst := by
      intro c d placed
      refine eq_of_forall₂ (fun x y => eq_of_reorders k ordered) ?_
      exact List.forall₂_map_left_iff.mpr (List.forall₂_map_right_iff.mpr (placed.imp fun p q same => same.1))
    cases shape with
    | hashed =>
      obtain ⟨arranged, perm, placed⟩ := reorders
      have symmetric : ∀ {p q : k.Value × t.Value}, k.equal p.1 q.1 = false → k.equal q.1 p.1 = false :=
        fun {p q} different => (equal_comm ordered q.1 p.1).trans different
      have holds' : MapShape.Holds .hashed k arranged := (perm.pairwise_iff symmetric).mp holds
      exact ⟨map_holds_congr (keys placed) holds',
        forall_of_forall₂ placed step fun x member => valid x (perm.mem_iff.mpr member)⟩
    | sorted => exact ⟨map_holds_congr (keys reorders) holds, forall_of_forall₂ reorders step valid⟩
  | option t ih =>
    cases reorders with
    | none => exact valid
    | some same =>
      rintro x ⟨⟩
      exact ih formed same (valid _ rfl)
  | pair s t ihs iht => exact ⟨ihs formed.1 reorders.1 valid.1, iht formed.2 reorders.2 valid.2⟩
  | triple s t u ihs iht ihu =>
    exact ⟨ihs formed.1 reorders.1 valid.1, iht formed.2.1 reorders.2.1 valid.2.1,
      ihu formed.2.2 reorders.2.2 valid.2.2⟩
  | newtype decl t ih => exact ih formed reorders valid
  | _ => trivial

end Ty

end TypedWire
