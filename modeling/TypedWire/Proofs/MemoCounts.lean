import TypedWire.Proofs.RegistryCoherence
import TypedWire.Proofs.RegistryResolution
import Mathlib.Algebra.BigOperators.Group.Finset.Basic
import Mathlib.Algebra.GroupWithZero.Nat

/-! Each type that occurs in the requested types is built once, and each request and each component slot of
a type that is built is a resolution, which builds or finds. -/

namespace TypedWire

/-! ### The types that occur -/

/-- A type and the types of its components, at any depth. -/
def Ty.parts : Ty → Finset Ty
  | .seq shape t => insert (.seq shape t) t.parts
  | .map shape k v => insert (.map shape k v) (k.parts ∪ v.parts)
  | .option t => insert (.option t) t.parts
  | .pair a b => insert (.pair a b) (a.parts ∪ b.parts)
  | .triple a b c => insert (.triple a b c) (a.parts ∪ (b.parts ∪ c.parts))
  | .newtype decl t => insert (.newtype decl t) t.parts
  | t => {t}

theorem Ty.mem_parts {t u : Ty} : u ∈ t.parts ↔ u = t ∨ ∃ c ∈ t.components, u ∈ c.parts := by
  cases t <;> simp [parts, components]

/-- The types that occur in the requested ones. -/
def occurring (requests : List Ty) : Finset Ty := requests.toFinset.biUnion Ty.parts

/-- In a fresh registry, the expansion of a type goes through all its parts. -/
theorem Registry.reaches_empty_iff (t u : Ty) : Registry.empty.Reaches t u ↔ u ∈ t.parts := by
  induction t using Ty.components_induction with
  | step t ih =>
    have missing : Registry.empty.lookup t = none := rfl
    rw [Registry.reaches_iff missing, Ty.mem_parts]
    constructor
    · rintro (same | ⟨c, component, reaches⟩)
      · exact .inl same
      · exact .inr ⟨c, component, (ih c component).mp reaches⟩
    · rintro (same | ⟨c, component, member⟩)
      · exact .inl same
      · exact .inr ⟨c, component, (ih c component).mpr member⟩

/-- In a fresh registry, the expansion of a type is its canonical codec. -/
theorem Registry.expansion_empty (t : Ty) : Registry.empty.expansion t = Codec.canonical t := by
  induction t using Ty.components_induction with
  | step t ih =>
    have missing : Registry.empty.lookup t = none := rfl
    rw [Registry.expansion_of_missing missing, Codec.combine_congr ih, Codec.combine_canonical]

/-! ### What is built -/

/-- The type that the call built an instance for: it resolved a type that had none. -/
def Call.built? : Call → Option Ty
  | ⟨before, .resolved t _, _⟩ => if (before.lookup t).isNone then some t else none
  | _ => none

theorem Call.countP_isMiss (calls : List Call) : calls.countP isMiss = (calls.filterMap built?).length := by
  rw [List.length_filterMap_eq_countP]
  apply List.countP_congr
  intro call _
  obtain ⟨before, reply, after⟩ := call
  cases reply with
  | resolved t inst => by_cases missing : before.lookup t = none <;> simp [isMiss, built?, missing]
  | _ => rfl

namespace Resolved

variable {first final : Registry} {types : List Ty} {calls : List Call}

/-- Calls by which types register instances for themselves are no resolutions. -/
private theorem of_registers {t : Ty} {own : List Call} (registers : ∀ call ∈ own, call.reply.Registers t) :
    own.filterMap Call.built? = [] ∧ own.countP Call.isHit = 0 ∧ own.countP Call.isMiss = 0 := by
  refine ⟨?_, ?_, ?_⟩
  · rw [List.filterMap_eq_nil_iff]
    rintro ⟨before, reply, after⟩ member
    obtain ⟨inst, replaced, rfl⟩ := registers _ member
    rfl
  · rw [List.countP_eq_zero]
    rintro ⟨before, reply, after⟩ member
    obtain ⟨inst, replaced, rfl⟩ := registers _ member
    simp [Call.isHit]
  · rw [List.countP_eq_zero]
    rintro ⟨before, reply, after⟩ member
    obtain ⟨inst, replaced, rfl⟩ := registers _ member
    simp [Call.isMiss]

/-- What is built is what comes to be held, and it is built once. -/
theorem builds_once (resolved : Resolved first types calls final) :
    (calls.filterMap Call.built?).Nodup ∧
      ∀ u, u ∈ calls.filterMap Call.built? ↔ first.lookup u = none ∧ final.lookup u ≠ none := by
  induction resolved with
  | @nothing last final same =>
    have lookups (u : Ty) : final.lookup u = last.lookup u := congrArg (Registry.find? u) same
    simp [lookups]
  | @found last before after final t inst types more idle there same rest ih =>
    have lookups (u : Ty) : after.lookup u = last.lookup u := congrArg (Registry.find? u) (same.trans idle)
    simpa [Call.built?, there, lookups] using ih
  | @built last before opened middle after final t inst types nested own more idle missing opens components registers
      isOver puts rest ihComponents ih =>
    obtain ⟨distinct, memNested⟩ := ihComponents
    obtain ⟨distinct', memMore⟩ := ih
    have opened_eq (u : Ty) : opened.lookup u = last.lookup u := congrArg (Registry.find? u) (opens.trans idle)
    have absent : middle.lookup t = none :=
      components.unfolds.missing_of_components ((congrArg (Registry.find? t) opens).trans missing)
    have grown (u : Ty) : after.lookup u ≠ none ↔ u = t ∨ middle.lookup u ≠ none := by
      rw [Registry.lookup, puts]
      exact Registry.find?_put_ne_none_iff
    have kept (u : Ty) (held : after.lookup u ≠ none) : final.lookup u ≠ none :=
      (rest.unfolds.reached u).mpr (.inl held)
    have parts : (nested ++ (own ++ ⟨before, .resolved t inst, after⟩ :: more)).filterMap Call.built? =
        nested.filterMap Call.built? ++ t :: more.filterMap Call.built? := by
      simp [(of_registers registers).1, Call.built?, missing]
    rw [parts]
    constructor
    · -- Neither the type nor what was built before it is built again, since it is held by then.
      refine List.nodup_append.mpr ⟨distinct, List.nodup_cons.mpr ⟨?_, distinct'⟩, ?_⟩
      · intro member
        exact (grown t).mpr (.inl rfl) ((memMore t).mp member).1
      · rintro u member _ member' rfl
        have held := ((memNested u).mp member).2
        rcases List.mem_cons.mp member' with rfl | member'
        · exact held absent
        · exact (grown u).mpr (.inr held) ((memMore u).mp member').1
    · intro u
      rw [List.mem_append, List.mem_cons, memNested, memMore, opened_eq]
      constructor
      · rintro (⟨fresh, held⟩ | rfl | ⟨fresh, held⟩)
        · exact ⟨fresh, kept u ((grown u).mpr (.inr held))⟩
        · exact ⟨(congrArg (Registry.find? u) idle).symm.trans missing, kept u ((grown u).mpr (.inl rfl))⟩
        · refine ⟨?_, held⟩
          by_contra there
          rw [← opened_eq] at there
          exact (grown u).mpr (.inr ((components.unfolds.reached u).mpr (.inl there))) fresh
      · rintro ⟨fresh, held⟩
        by_cases self : u = t
        · exact .inr (.inl self)
        · by_cases there : middle.lookup u = none
          · refine .inr (.inr ⟨?_, held⟩)
            by_contra held'
            rcases (grown u).mp held' with same | held'
            · exact self same
            · exact held' there
          · exact .inl ⟨fresh, there⟩

/-- Each type that is asked for is a resolution, and so is each component slot of a type that is built. -/
theorem count (resolved : Resolved first types calls final) :
    calls.countP Call.isHit + calls.countP Call.isMiss =
      types.length + ((calls.filterMap Call.built?).map fun t => t.components.length).sum := by
  induction resolved with
  | nothing same => rfl
  | found idle there same rest ih =>
    simp [Call.isHit, Call.isMiss, Call.built?, there] at ih ⊢
    omega
  | built idle missing opens components registers isOver puts rest ihComponents ih =>
    obtain ⟨nothing, hits, misses⟩ := of_registers registers
    simp [Call.isHit, Call.isMiss, Call.built?, missing, nothing, hits, misses] at ihComponents ih ⊢
    omega

end Resolved

/-! ### The counts -/

/-- A fresh registry in which the types have been resolved, one after the other. -/
def Registry.having (requests : List Ty) : Registry :=
  ((requests.forM fun t => discard (RegistryM.resolve t)).run .empty).2

/-- The types that instances were built for meanwhile, in the order in which the builds were done. -/
def Registry.built (requests : List Ty) : List Ty :=
  ((Client.resolving requests).history .empty).filterMap Call.built?

theorem Registry.resolved_having (requests : List Ty) :
    Resolved .empty requests ((Client.resolving requests).history .empty) (having requests) := by
  rw [having, ← Client.run_resolving]
  exact Client.resolved_resolving requests .empty

theorem Registry.lookup_having_iff (requests : List Ty) (t : Ty) :
    (having requests).lookup t ≠ none ↔ t ∈ occurring requests := by
  have reached := (resolved_having requests).unfolds.reached t
  have nothing : Registry.empty.lookup t = none := rfl
  simpa [reaches_empty_iff, nothing, occurring] using reached

/-- The types that are built are those that occur, each once. -/
theorem Registry.built_toFinset (requests : List Ty) :
    (built requests).Nodup ∧ (built requests).toFinset = occurring requests := by
  obtain ⟨distinct, members⟩ := (resolved_having requests).builds_once
  refine ⟨distinct, ?_⟩
  ext t
  have nothing : Registry.empty.lookup t = none := rfl
  rw [List.mem_toFinset, built, members, lookup_having_iff]
  simp [nothing]

theorem Registry.size_having (requests : List Ty) : (having requests).size = (occurring requests).card := by
  have chain := (Client.resolving requests).chain_history .empty
  rw [Client.run_resolving] at chain
  have distinct : (having requests).types.Nodup := chain.nodup_types List.nodup_nil
  have same : (having requests).types.toFinset = occurring requests := by
    ext t
    rw [List.mem_toFinset, mem_types_iff, lookup_having_iff]
  rw [← same, List.toFinset_card_of_nodup distinct, Registry.types, List.length_map, Registry.size]

/-- How many component slots the types have. -/
def slotsOf (types : Finset Ty) : Nat := ∑ t ∈ types, t.components.length

/-- Every resolution of a request or a component is a build or finds what was built. -/
theorem Registry.shows_having (requests : List Ty) :
    (occurring requests).card ≤ requests.length + slotsOf (occurring requests) ∧
      (having requests).Shows (requests.length + slotsOf (occurring requests) - (occurring requests).card)
        (occurring requests).card := by
  have chain := (Client.resolving requests).chain_history .empty
  rw [Client.run_resolving] at chain
  have fresh : Registry.empty.Shows 0 0 := ⟨rfl, rfl⟩
  have shows : (having requests).Shows _ _ := chain.shows fresh
  obtain ⟨distinct, same⟩ := built_toFinset requests
  have misses := Call.countP_isMiss ((Client.resolving requests).history .empty)
  have total := (resolved_having requests).count
  rw [← built] at misses total
  rw [misses, ← List.sum_toFinset _ distinct, ← List.toFinset_card_of_nodup distinct, same, ← slotsOf] at total
  rw [misses, ← List.toFinset_card_of_nodup distinct, same, Nat.zero_add, Nat.zero_add] at shows
  refine ⟨by omega, ?_⟩
  rwa [← total, Nat.add_sub_cancel]

/-- What is left in a fresh registry by resolving types one after the other. -/
structure Memoized (requests : List Ty) : Prop where
  held : ∀ t, (Registry.having requests).lookup t ≠ none ↔ t ∈ occurring requests
  canonical : ∀ t inst, (Registry.having requests).lookup t = some inst → inst.codec = Codec.canonical t
  /-- Each type that occurs was built once, and nothing else was built. -/
  once : ∀ t, (Registry.built requests).count t = if t ∈ occurring requests then 1 else 0
  size : (Registry.having requests).size = (occurring requests).card
  misses : (Registry.having requests).misses = Registry.counted (occurring requests).card
  hits : (Registry.having requests).hits =
    Registry.counted (requests.length + slotsOf (occurring requests) - (occurring requests).card)
  enough : (occurring requests).card ≤ requests.length + slotsOf (occurring requests)
  /-- As long as fewer resolutions are made than a count can show, the counts are exact. -/
  exact : requests.length + slotsOf (occurring requests) < UInt64.size →
    (Registry.having requests).misses = (Registry.having requests).size ∧
      (Registry.having requests).hits + (occurring requests).card =
        requests.length + slotsOf (occurring requests)
  /-- In another order, the same requests leave the same codecs and counts. -/
  order : ∀ others, others.Perm requests →
    (∀ t, ((Registry.having others).lookup t).map Instance.codec =
        ((Registry.having requests).lookup t).map Instance.codec) ∧
      (Registry.having others).size = (Registry.having requests).size ∧
        (Registry.having others).hits = (Registry.having requests).hits ∧
          (Registry.having others).misses = (Registry.having requests).misses

theorem Registry.codec_having {requests : List Ty} {t : Ty} {inst : Instance t}
    (found : (having requests).lookup t = some inst) : inst.codec = Codec.canonical t := by
  rw [← expansion_empty]
  exact (resolved_having requests).unfolds.codec_eq found

/-- The codecs of a registry depend on the types that occur only. -/
theorem Registry.codecs_having (requests : List Ty) (t : Ty) :
    ((having requests).lookup t).map Instance.codec =
      if t ∈ occurring requests then some (Codec.canonical t) else none := by
  have held := lookup_having_iff requests t
  cases found : (having requests).lookup t with
  | none =>
    rw [if_neg fun member => held.mpr member found]
    rfl
  | some inst =>
    rw [if_pos (held.mp (by simp [found])), ← codec_having found]
    rfl

theorem occurring_perm {requests others : List Ty} (perm : others.Perm requests) :
    occurring others = occurring requests := by
  rw [occurring, occurring, List.toFinset_eq_of_perm _ _ perm]

/-- Resolving types memoizes each type that occurs in them, and the counts come from these and the number of
requests. -/
theorem resolutions_memoize (requests : List Ty) : Memoized requests := by
  obtain ⟨distinct, same⟩ := Registry.built_toFinset requests
  obtain ⟨enough, shows⟩ := Registry.shows_having requests
  have size := Registry.size_having requests
  constructor
  · exact Registry.lookup_having_iff requests
  · intro t inst found
    exact Registry.codec_having found
  · intro t
    rw [distinct.count, ← same]
    simp
  · exact size
  · exact shows.misses
  · exact shows.hits
  · exact enough
  · intro small
    rw [shows.hits, shows.misses, Registry.counted_eq (by omega), Registry.counted_eq (by omega)]
    exact ⟨size.symm, by omega⟩
  · intro others perm
    obtain ⟨-, shows'⟩ := Registry.shows_having others
    rw [shows.hits, shows.misses, shows'.hits, shows'.misses, size, Registry.size_having, occurring_perm perm,
      perm.length_eq]
    refine ⟨?_, rfl, rfl, rfl⟩
    intro t
    rw [Registry.codecs_having, Registry.codecs_having, occurring_perm perm]

example : let registry := Registry.having [.pair .bool .text, .pair .bool .text]
    registry.size = 3 ∧ registry.misses = 3 ∧ registry.hits = 1 := by decide

end TypedWire
