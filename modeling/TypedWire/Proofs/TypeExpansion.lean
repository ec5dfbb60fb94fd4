import TypedWire.Proofs.RegistryTable

/-! The expansion of a type is the canonical combinator of the type over the expansions of its components,
down to the types that have an instance in the registry, where it stops at what they have. -/

namespace TypedWire

/-! ### Components -/

/-- The types of the component slots of a type, in order. -/
def Ty.components : Ty → List Ty
  | .seq _ t => [t]
  | .map _ k v => [k, v]
  | .option t => [t]
  | .pair a b => [a, b]
  | .triple a b c => [a, b, c]
  | .newtype _ t => [t]
  | _ => []

theorem Ty.sizeOf_lt_of_component {t u : Ty} (component : u ∈ t.components) : sizeOf u < sizeOf t := by
  cases t with
  | seq shape t =>
    cases List.mem_singleton.mp component
    simp only [Ty.seq.sizeOf_spec]
    omega
  | option t =>
    cases List.mem_singleton.mp component
    simp
  | newtype decl t =>
    cases List.mem_singleton.mp component
    simp only [Ty.newtype.sizeOf_spec]
    omega
  | map shape k v =>
    simp only [components, List.mem_cons, List.not_mem_nil, or_false] at component
    rw [Ty.map.sizeOf_spec]
    rcases component with rfl | rfl <;> omega
  | pair a b =>
    simp only [components, List.mem_cons, List.not_mem_nil, or_false] at component
    rw [Ty.pair.sizeOf_spec]
    rcases component with rfl | rfl <;> omega
  | triple a b c =>
    simp only [components, List.mem_cons, List.not_mem_nil, or_false] at component
    rw [Ty.triple.sizeOf_spec]
    rcases component with rfl | rfl | rfl <;> omega
  | _ => simp [components] at component

/-- What holds of a type if it holds of its components holds of every type. -/
theorem Ty.components_induction {motive : Ty → Prop} (step : ∀ t, (∀ u ∈ t.components, motive u) → motive t)
    (t : Ty) : motive t := by
  induction t with
  | seq shape t ih => exact step _ (by simpa [components] using ih)
  | map shape k v ihk ihv => exact step _ (by simpa [components] using ⟨ihk, ihv⟩)
  | option t ih => exact step _ (by simpa [components] using ih)
  | pair a b iha ihb => exact step _ (by simpa [components] using ⟨iha, ihb⟩)
  | triple a b c iha ihb ihc => exact step _ (by simpa [components] using ⟨iha, ihb, ihc⟩)
  | newtype decl t ih => exact step _ (by simpa [components] using ih)
  | _ => exact step _ (by simp [components])

/-- The canonical combinator of a type over codecs for its components. A new type that registers a stand-in is left
with that. -/
def Codec.combine (part : (u : Ty) → Codec u) : (t : Ty) → Codec t
  | .seq shape t => .seq shape (part t)
  | .map shape k v => .map shape (part k) (part v)
  | .option t => .option (part t)
  | .pair a b => .pair (part a) (part b)
  | .triple a b c => .triple (part a) (part b) (part c)
  | .newtype decl t => renamed decl (decl.standIn.getD decl.codecName) (part t)
  | t => canonical t

theorem Codec.combine_congr {t : Ty} {part other : (u : Ty) → Codec u} (same : ∀ u ∈ t.components, part u = other u) :
    combine part t = combine other t := by
  cases t with
  | seq shape t => simp [combine, same t (by simp [Ty.components])]
  | map shape k v => simp [combine, same k (by simp [Ty.components]), same v (by simp [Ty.components])]
  | option t => simp [combine, same t (by simp [Ty.components])]
  | pair a b => simp [combine, same a (by simp [Ty.components]), same b (by simp [Ty.components])]
  | triple a b c =>
    simp [combine, same a (by simp [Ty.components]), same b (by simp [Ty.components]), same c (by simp [Ty.components])]
  | newtype decl t => simp [combine, same t (by simp [Ty.components])]
  | _ => rfl

/-- The canonical codec of a type is its combinator over those of the components. -/
theorem Codec.combine_canonical (t : Ty) : combine canonical t = canonical t := by
  cases t <;> rfl

/-! ### Expansions -/

namespace Registry

/-- The codec that a type has in the registry, or else another one. -/
def holding (registry : Registry) {t : Ty} (otherwise : Codec t) : Codec t :=
  match registry.lookup t with
  | some held => held.codec
  | none => otherwise

/-- The canonical combinators of a type and its components, down to the types that have an instance. -/
def expansion (registry : Registry) : (t : Ty) → Codec t
  | .seq shape t => registry.holding (.seq shape (registry.expansion t))
  | .map shape k v => registry.holding (.map shape (registry.expansion k) (registry.expansion v))
  | .option t => registry.holding (.option (registry.expansion t))
  | .pair a b => registry.holding (.pair (registry.expansion a) (registry.expansion b))
  | .triple a b c =>
    registry.holding (.triple (registry.expansion a) (registry.expansion b) (registry.expansion c))
  | .newtype decl t =>
    registry.holding (Codec.renamed decl (decl.standIn.getD decl.codecName) (registry.expansion t))
  | t => registry.holding (Codec.canonical t)

theorem expansion_eq (registry : Registry) (t : Ty) :
    registry.expansion t = registry.holding (Codec.combine registry.expansion t) := by
  cases t <;> rfl

theorem expansion_of_found {registry : Registry} {t : Ty} {held : Instance t}
    (found : registry.lookup t = some held) : registry.expansion t = held.codec := by
  rw [expansion_eq, holding, found]

theorem expansion_of_missing {registry : Registry} {t : Ty} (missing : registry.lookup t = none) :
    registry.expansion t = Codec.combine registry.expansion t := by
  rw [expansion_eq, holding, missing]

/-- The expansion of a type has a place for another one: it stops there, or goes on into its components. -/
inductive Reaches (registry : Registry) : Ty → Ty → Prop
  | here (t : Ty) : Reaches registry t t
  | inside {t u v : Ty} (missing : registry.lookup t = none) (component : u ∈ t.components)
      (reaches : Reaches registry u v) : Reaches registry t v

variable {registry : Registry} {t u v : Ty}

theorem Reaches.trans (one : registry.Reaches t u) (two : registry.Reaches u v) : registry.Reaches t v := by
  induction one with
  | here t => exact two
  | inside missing component _ ih => exact .inside missing component (ih two)

theorem Reaches.sizeOf_le (reaches : registry.Reaches t u) : sizeOf u ≤ sizeOf t := by
  induction reaches with
  | here t => exact Nat.le_refl _
  | inside missing component _ ih => exact Nat.le_trans ih (Nat.le_of_lt (Ty.sizeOf_lt_of_component component))

/-- A type that has an instance is as far as its expansion goes. -/
theorem Reaches.eq_of_found (reaches : registry.Reaches t u) (found : registry.lookup t ≠ none) : u = t := by
  cases reaches with
  | here t => rfl
  | inside missing component reaches => exact absurd missing found

theorem reaches_iff (missing : registry.lookup t = none) :
    registry.Reaches t v ↔ v = t ∨ ∃ u ∈ t.components, registry.Reaches u v := by
  constructor
  · intro reaches
    cases reaches with
    | here t => exact .inl rfl
    | inside missing component reaches => exact .inr ⟨_, component, reaches⟩
  · rintro (rfl | ⟨u, component, reaches⟩)
    · exact .here v
    · exact .inside missing component reaches

end Registry

/-! ### Instances over instances -/

/-- The instance is the canonical combinator over the instances that the registry holds for the components: it has
their codecs, and their serial numbers stand in its slots. -/
def Instance.Over (registry : Registry) {t : Ty} (inst : Instance t) : Prop :=
  ∃ part : (u : Ty) → Instance u, (∀ u ∈ t.components, registry.lookup u = some (part u)) ∧
    inst.codec = Codec.combine (fun u => (part u).codec) t ∧
    inst.components = t.components.map fun u => (u, (part u).serial)

/-- One registry holds what another one does, and what the expansions of `types` reach. -/
structure Unfolds (before after : Registry) (types : List Ty) : Prop where
  kept : ∀ u held, before.lookup u = some held → after.lookup u = some held
  /-- An instance that was not there has the expansion of its type for a codec, and is over the instances that are
  there for the components. -/
  built : ∀ u made, before.lookup u = none → after.lookup u = some made →
    made.codec = before.expansion u ∧ made.Over after
  reached : ∀ u, after.lookup u ≠ none ↔ before.lookup u ≠ none ∨ ∃ t ∈ types, before.Reaches t u

namespace Unfolds

variable {before middle after : Registry} {types more : List Ty} {t u : Ty} {inst : Instance t}

theorem over_mono (kept : ∀ u held, before.lookup u = some held → after.lookup u = some held)
    (isOver : inst.Over before) : inst.Over after := by
  obtain ⟨part, held, codec, slots⟩ := isOver
  exact ⟨part, fun u component => kept u _ (held u component), codec, slots⟩

theorem codec_eq {held : Instance u} (unfolds : Unfolds before after types) (found : after.lookup u = some held) :
    held.codec = before.expansion u := by
  cases there : before.lookup u with
  | none => exact (unfolds.built u held there found).1
  | some other =>
    obtain rfl : other = held := Option.some.inj ((unfolds.kept u other there).symm.trans found)
    exact (Registry.expansion_of_found there).symm

/-- What is built leaves expansions as they were. -/
theorem expansion_eq (unfolds : Unfolds before after types) (t : Ty) : after.expansion t = before.expansion t := by
  induction t using Ty.components_induction with
  | step t ih =>
    cases found : after.lookup t with
    | some held =>
      rw [Registry.expansion_of_found found]
      exact unfolds.codec_eq found
    | none =>
      have missing : before.lookup t = none := by
        by_contra there
        exact (unfolds.reached t).mpr (.inl there) found
      rw [Registry.expansion_of_missing found, Registry.expansion_of_missing missing]
      exact Codec.combine_congr ih

theorem of_same (same : after.entries = before.entries) : Unfolds before after [] := by
  have lookups (u : Ty) : after.lookup u = before.lookup u := congrArg (Registry.find? u) same
  constructor
  · intro u held found
    rw [lookups, found]
  · intro u made missing found
    rw [lookups, missing] at found
    cases found
  · intro u
    simp [lookups]

/-- Where one type has an instance, its expansion adds nothing. -/
theorem of_found (same : after.entries = before.entries) (found : before.lookup t ≠ none) :
    Unfolds before after [t] := by
  obtain ⟨kept, built, reached⟩ := of_same same
  refine ⟨kept, built, ?_⟩
  intro u
  rw [reached]
  constructor
  · rintro (there | ⟨_, member, -⟩)
    · exact .inl there
    · cases member
  · rintro (there | ⟨t, member, reaches⟩)
    · exact .inl there
    · cases List.mem_singleton.mp member
      cases reaches.eq_of_found found
      exact .inl found

/-- What the expansion of a type reaches by way of `middle` it reaches at once, and what it reaches at once is in
`middle` or reached by way of that. -/
theorem reaches_iff (one : Unfolds before middle types) (t u : Ty) :
    middle.lookup u ≠ none ∨ middle.Reaches t u ↔ middle.lookup u ≠ none ∨ before.Reaches t u := by
  constructor
  · rintro (there | reaches)
    · exact .inl there
    · right
      induction reaches with
      | here t => exact .here t
      | inside missing component _ ih =>
        refine .inside ?_ component ih
        by_contra there
        exact (one.reached _).mpr (.inl there) missing
  · rintro (there | reaches)
    · exact .inl there
    · induction reaches with
      | here t => exact .inr (.here t)
      | @inside t v u missing component reaches ih =>
        by_cases there : middle.lookup t = none
        · rcases ih with found | further
          · exact .inl found
          · exact .inr (.inside there component further)
        · -- The type was built on the way to `middle`, and with it all that its expansion reaches.
          left
          rcases (one.reached t).mp there with before' | ⟨s, member, reaches'⟩
          · exact absurd missing before'
          · exact (one.reached u).mpr (.inr ⟨s, member, reaches'.trans (.inside missing component reaches)⟩)

theorem append (one : Unfolds before middle types) (two : Unfolds middle after more) :
    Unfolds before after (types ++ more) := by
  constructor
  · intro u held found
    exact two.kept u held (one.kept u held found)
  · intro u made missing found
    refine ⟨?_, ?_⟩
    · rw [← one.expansion_eq]
      exact two.codec_eq found
    · cases there : middle.lookup u with
      | none => exact (two.built u made there found).2
      | some held =>
        obtain rfl : held = made := Option.some.inj ((two.kept u held there).symm.trans found)
        exact over_mono two.kept (one.built u held missing there).2
  · intro u
    have through (t : Ty) := one.reaches_iff t u
    have first := one.reached u
    rw [two.reached]
    constructor
    · rintro (there | ⟨t, member, reaches⟩)
      · rcases first.mp there with there | ⟨t, member, reaches⟩
        · exact .inl there
        · exact .inr ⟨t, List.mem_append_left _ member, reaches⟩
      · rcases (through t).mp (.inr reaches) with there | reaches
        · rcases first.mp there with there | ⟨t, member, reaches⟩
          · exact .inl there
          · exact .inr ⟨t, List.mem_append_left _ member, reaches⟩
        · exact .inr ⟨t, List.mem_append_right _ member, reaches⟩
    · rintro (there | ⟨t, member, reaches⟩)
      · exact .inl (first.mpr (.inl there))
      · rcases List.mem_append.mp member with member | member
        · exact .inl (first.mpr (.inr ⟨t, member, reaches⟩))
        · rcases (through t).mpr (.inr reaches) with there | reaches
          · exact .inl there
          · exact .inr ⟨t, member, reaches⟩

/-- Building the components of a type does not build the type. -/
theorem missing_of_components (one : Unfolds before middle t.components) (missing : before.lookup t = none) :
    middle.lookup t = none := by
  by_contra there
  rcases (one.reached t).mp there with before' | ⟨u, component, reaches⟩
  · exact before' missing
  · exact absurd reaches.sizeOf_le (Nat.not_le.mpr (Ty.sizeOf_lt_of_component component))

/-- A type is unfolded by unfolding its components and building it over them. -/
theorem insert (missing : before.lookup t = none) (one : Unfolds before middle t.components) (isOver : inst.Over middle)
    (puts : after.entries = Registry.put inst middle.entries) : Unfolds before after [t] := by
  have absent := one.missing_of_components missing
  have self : after.lookup t = some inst := by
    rw [Registry.lookup, puts, Registry.find?_put_self]
  have others (u : Ty) (different : u ≠ t) : after.lookup u = middle.lookup u := by
    rw [Registry.lookup, puts, Registry.find?_put_of_ne inst middle.entries different]
    rfl
  have kept (u : Ty) (held : Instance u) (found : middle.lookup u = some held) : after.lookup u = some held := by
    rw [others u ?_, found]
    rintro rfl
    rw [absent] at found
    cases found
  constructor
  · intro u held found
    exact kept u held (one.kept u held found)
  · intro u made missing' found
    by_cases same : u = t
    · subst same
      cases self.symm.trans found
      refine ⟨?_, over_mono kept isOver⟩
      obtain ⟨part, held, codec, -⟩ := isOver
      rw [codec, Registry.expansion_of_missing missing]
      exact Codec.combine_congr fun v component => one.codec_eq (held v component)
    · rw [others u same] at found
      obtain ⟨codec, isOver'⟩ := one.built u made missing' found
      exact ⟨codec, over_mono kept isOver'⟩
  · intro u
    simp only [List.mem_singleton, exists_eq_left, Registry.reaches_iff missing]
    by_cases same : u = t
    · subst same
      simp [self]
    · simp only [others u same, one.reached u, same, false_or]

end Unfolds
end TypedWire
