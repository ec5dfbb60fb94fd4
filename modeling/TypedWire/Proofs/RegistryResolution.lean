import TypedWire.Proofs.RegistryCalls
import TypedWire.Proofs.TypeExpansion

/-! A type is resolved by resolving its components and building an instance over theirs. A new type with a
stand-in puts that into the table itself while it is built, and keeps it. -/

namespace TypedWire

/-- The types are resolved one after the other by these calls, from one table to another. -/
inductive Resolved : Registry → List Ty → List Call → Registry → Prop
  | nothing {last final : Registry} (same : final.entries = last.entries) : Resolved last [] [] final
  | found {last before after final : Registry} {t : Ty} {inst : Instance t} {types : List Ty} {more : List Call}
      (idle : before.entries = last.entries) (there : before.lookup t = some inst)
      (same : after.entries = before.entries) (rest : Resolved after types more final) :
      Resolved last (t :: types) (⟨before, .resolved t inst, after⟩ :: more) final
  /-- The calls for the components come first, and then those by which the type registers an instance for itself. -/
  | built {last before opened middle after final : Registry} {t : Ty} {inst : Instance t} {types : List Ty}
      {nested own more : List Call} (idle : before.entries = last.entries) (missing : before.lookup t = none)
      (opens : opened.entries = before.entries) (components : Resolved opened t.components nested middle)
      (registers : ∀ call ∈ own, call.reply.Registers t) (isOver : inst.Over middle)
      (puts : after.entries = Registry.put inst middle.entries) (rest : Resolved after types more final) :
      Resolved last (t :: types) (nested ++ (own ++ ⟨before, .resolved t inst, after⟩ :: more)) final

namespace Resolved

variable {first last middle final : Registry} {types others : List Ty} {calls more : List Call}

theorem of_same (same : last.entries = first.entries) (resolved : Resolved last types calls final) :
    Resolved first types calls final := by
  cases resolved with
  | nothing same' => exact .nothing (same'.trans same)
  | found idle there same' rest => exact .found (idle.trans same) there same' rest
  | built idle missing opens components registers isOver puts rest =>
    exact .built (idle.trans same) missing opens components registers isOver puts rest

theorem append (one : Resolved first types calls middle) (two : Resolved middle others more final) :
    Resolved first (types ++ others) (calls ++ more) final := by
  induction one with
  | nothing same => exact two.of_same same
  | found idle there same _ ih => exact .found idle there same (ih two)
  | built idle missing opens components registers isOver puts _ _ ih =>
    rw [List.append_assoc, List.append_assoc]
    exact .built idle missing opens components registers isOver puts (ih two)

/-- What is resolved is unfolded. -/
theorem unfolds (resolved : Resolved first types calls final) : Unfolds first final types := by
  induction resolved with
  | nothing same => exact .of_same same
  | @found last before after final t inst types more idle there same rest ih =>
    have found : last.lookup t ≠ none := by
      have lookups : before.lookup t = last.lookup t := congrArg (Registry.find? t) idle
      rw [← lookups, there]
      exact Option.some_ne_none inst
    exact (Unfolds.of_found (same.trans idle) found).append ih
  | @built last before opened middle after final t inst types nested own more idle missing opens components registers
      isOver puts rest ihComponents ih =>
    have absent : last.lookup t = none := (congrArg (Registry.find? t) idle).symm.trans missing
    have unfolds := (Unfolds.of_same (opens.trans idle)).append ihComponents
    exact (Unfolds.insert absent unfolds isOver puts).append ih

end Resolved

/-- The client builds an instance for `t` over instances that the registry holds by then: it resolves the types
`still` and makes a codec over the instances it got and those that it has got already. -/
inductive Builds (t : Ty) : (got : List ((u : Ty) × Instance u)) → (still : List Ty) → Client (Instance t) → Prop
  | resolve {got : List ((u : Ty) × Instance u)} {u : Ty} {still : List Ty} {next : Instance u → Client (Instance t)}
      (each : ∀ part, Builds t (⟨u, part⟩ :: got) still (next part)) :
      Builds t got (u :: still) (.resolve u (.building u) next)
  | make {got : List ((u : Ty) × Instance u)} {codec : Codec t} {components : List (Ty × Nat)}
      (isOver : ∀ (registry : Registry) (serial : Nat), (∀ part ∈ got, registry.lookup part.1 = some part.2) →
        Instance.Over registry ⟨serial, codec, components⟩) : Builds t got [] (.make codec components .done)
  | standIn {got : List ((u : Ty) × Instance u)} {codec other : Codec t} {components slots : List (Ty × Nat)}
      (isOver : ∀ (registry : Registry) (serial : Nat), (∀ part ∈ got, registry.lookup part.1 = some part.2) →
        Instance.Over registry ⟨serial, codec, components⟩) :
      Builds t got [] (.make codec components fun early => .register early fun _ => .make other slots .done)

namespace Client

/-- An instance is over those that a registry holds for the components, if it was made from them. -/
private theorem over_of_held {registry : Registry} {t : Ty} {inst : Instance t}
    (held : ∀ u ∈ t.components, registry.lookup u ≠ none)
    (made : ∀ part : (u : Ty) → Instance u, (∀ u ∈ t.components, registry.lookup u = some (part u)) →
      inst.codec = Codec.combine (fun u => (part u).codec) t ∧
        inst.components = t.components.map fun u => (u, (part u).serial)) : inst.Over registry := by
  let part (u : Ty) : Instance u := (registry.lookup u).getD ⟨0, Codec.canonical u, []⟩
  have found (u : Ty) (component : u ∈ t.components) : registry.lookup u = some (part u) := by
    obtain ⟨inst, there⟩ := Option.ne_none_iff_exists'.mp (held u component)
    simp [part, there]
  exact ⟨part, found, made part found⟩

private theorem part_eq {registry : Registry} {t u : Ty} {held : Instance u} {part : (u : Ty) → Instance u}
    (there : registry.lookup u = some held) (component : u ∈ t.components)
    (found : ∀ u ∈ t.components, registry.lookup u = some (part u)) : part u = held :=
  Option.some.inj ((found u component).symm.trans there)

theorem builds_building (t : Ty) : Builds t [] t.components (building t) := by
  cases t with
  | seq shape t =>
    refine .resolve fun element => .make fun registry serial held => ?_
    have first := held ⟨t, element⟩ (by simp)
    refine over_of_held (by simp [Ty.components, first]) fun part found => ?_
    simp [Codec.combine, Ty.components, part_eq first (by simp [Ty.components]) found]
  | option t =>
    refine .resolve fun value => .make fun registry serial held => ?_
    have first := held ⟨t, value⟩ (by simp)
    refine over_of_held (by simp [Ty.components, first]) fun part found => ?_
    simp [Codec.combine, Ty.components, part_eq first (by simp [Ty.components]) found]
  | map shape k v =>
    refine .resolve fun key => .resolve fun value => .make fun registry serial held => ?_
    have first := held ⟨k, key⟩ (by simp)
    have second := held ⟨v, value⟩ (by simp)
    refine over_of_held (by simp [Ty.components, first, second]) fun part found => ?_
    simp [Codec.combine, Ty.components, part_eq first (by simp [Ty.components]) found,
      part_eq second (by simp [Ty.components]) found]
  | pair a b =>
    refine .resolve fun x => .resolve fun y => .make fun registry serial held => ?_
    have first := held ⟨a, x⟩ (by simp)
    have second := held ⟨b, y⟩ (by simp)
    refine over_of_held (by simp [Ty.components, first, second]) fun part found => ?_
    simp [Codec.combine, Ty.components, part_eq first (by simp [Ty.components]) found,
      part_eq second (by simp [Ty.components]) found]
  | triple a b c =>
    refine .resolve fun x => .resolve fun y => .resolve fun z => .make fun registry serial held => ?_
    have first := held ⟨a, x⟩ (by simp)
    have second := held ⟨b, y⟩ (by simp)
    have third := held ⟨c, z⟩ (by simp)
    refine over_of_held (by simp [Ty.components, first, second, third]) fun part found => ?_
    simp [Codec.combine, Ty.components, part_eq first (by simp [Ty.components]) found,
      part_eq second (by simp [Ty.components]) found, part_eq third (by simp [Ty.components]) found]
  | newtype decl t =>
    refine .resolve fun base => ?_
    have isOver (registry : Registry) (serial : Nat) (held : ∀ part ∈ [(⟨t, base⟩ : (u : Ty) × Instance u)],
        registry.lookup part.1 = some part.2) : Instance.Over registry
          ⟨serial, Codec.renamed decl (decl.standIn.getD decl.codecName) base.codec, [(t, base.serial)]⟩ := by
      have first := held ⟨t, base⟩ (by simp)
      refine over_of_held (by simp [Ty.components, first]) fun part found => ?_
      simp [Codec.combine, Ty.components, part_eq first (by simp [Ty.components]) found]
    cases standIn : decl.standIn with
    | none =>
      rw [standIn] at isOver
      exact .make isOver
    | some name =>
      rw [standIn] at isOver
      exact .standIn isOver
  | _ =>
    refine .make fun registry serial held => over_of_held (by simp [Ty.components]) fun part found => ?_
    simp [Codec.combine, Ty.components]

/-- Where the components of `t` are resolved in `middle`, the rest of the build makes an instance over them, or
registers such an instance for the type itself. -/
def Finishes {t : Ty} (own : List Call) (middle final : Registry) (result : Instance t) : Prop :=
  (own = [] ∧ final.entries = middle.entries ∧ result.Over middle) ∨
    ∃ inst : Instance t, (∀ call ∈ own, call.reply.Registers t) ∧
      final.entries = Registry.put inst middle.entries ∧ inst.Over middle

/-- From any registry, a client that resolves the type goes on from one in which the type is resolved, with the
instance that it has there. -/
def Resolves (t : Ty) : Prop :=
  ∀ registry : Registry, ∃ (calls : List Call) (inst : Instance t) (after : Registry),
    Resolved registry [t] calls after ∧ after.lookup t = some inst ∧
      (RegistryM.settle t (building t).run).run registry = (inst, after) ∧
        ∀ {α : Type} (next : Instance t → Client α),
          (Client.resolve t (building t) next).history registry = calls ++ (next inst).history after

/-- A client that builds resolves what it still needs, and finishes. -/
theorem resolved_of_builds {t : Ty} {got : List ((u : Ty) × Instance u)} {still : List Ty}
    {client : Client (Instance t)} (builds : Builds t got still client) (resolves : ∀ u ∈ still, Resolves u)
    (registry : Registry) (held : ∀ part ∈ got, registry.lookup part.1 = some part.2) :
    ∃ (nested own : List Call) (middle final : Registry) (result : Instance t),
      Resolved registry still nested middle ∧ client.history registry = nested ++ own ∧
        client.run.run registry = (result, final) ∧ Finishes own middle final result := by
  induction builds generalizing registry with
  | @resolve got u still next each ih =>
    obtain ⟨calls, inst, after, resolved, found, settles, continues⟩ := resolves u List.mem_cons_self registry
    have held' : ∀ part ∈ (⟨u, inst⟩ :: got : List ((u : Ty) × Instance u)), after.lookup part.1 = some part.2 := by
      intro part member
      rcases List.mem_cons.mp member with rfl | member
      · exact found
      · exact resolved.unfolds.kept _ _ (held part member)
    obtain ⟨nested, own, middle, final, result, more, history, runs, finishes⟩ :=
      ih inst (fun v member => resolves v (List.mem_cons_of_mem _ member)) after held'
    refine ⟨calls ++ nested, own, middle, final, result, resolved.append more, ?_, ?_, finishes⟩
    · rw [continues, history, List.append_assoc]
    · rw [run, RegistryM.run_bind _ settles]
      exact runs
  | make isOver =>
    exact ⟨[], [], registry, _, _, .nothing rfl, rfl, rfl, .inl ⟨rfl, rfl, isOver registry _ held⟩⟩
  | @standIn got codec other components slots isOver =>
    let early : Instance t := ⟨registry.nextSerial, codec, components⟩
    refine ⟨[], _, registry, _, _, .nothing rfl, rfl, rfl, .inr ⟨early, ?_, rfl, isOver registry _ held⟩⟩
    intro call member
    cases List.mem_singleton.mp member
    exact ⟨_, _, rfl⟩

/-- Every type of the library is resolved so. -/
theorem resolves (t : Ty) : Resolves t := by
  induction t using Ty.components_induction with
  | step t ih =>
    intro registry
    cases found : registry.lookup t with
    | some held =>
      obtain ⟨after, settles, same⟩ : ∃ after : Registry,
          (RegistryM.settle t (building t).run).run registry = (held, after) ∧ after.entries = registry.entries :=
        ⟨_, RegistryM.run_settle_held (building t).run found, rfl⟩
      have still : after.lookup t = some held := (congrArg (Registry.find? t) same).trans found
      refine ⟨_, held, after, .found rfl found same (.nothing rfl), still, settles, ?_⟩
      intro α next
      rw [history, found, settles]
      rfl
    | none =>
      have opens : (opened t registry).entries = registry.entries := rfl
      obtain ⟨nested, own, middle, final, result, components, calls, runs, finishes⟩ :=
        resolved_of_builds (builds_building t) ih (opened t registry) (by simp)
      obtain ⟨outruns, builds⟩ := RegistryM.run_settle_missing (building t).run found runs
      have absent : middle.lookup t = none :=
        ((Unfolds.of_same opens).append components.unfolds).missing_of_components found
      -- What is built goes in, unless a stand-in has come in before it.
      obtain ⟨inst, after, settles, registers, puts, isOver⟩ : ∃ (inst : Instance t) (after : Registry),
          (RegistryM.settle t (building t).run).run registry = (inst, after) ∧
            (∀ call ∈ own, call.reply.Registers t) ∧ after.entries = Registry.put inst middle.entries ∧
              inst.Over middle := by
        rcases finishes with ⟨rfl, same, isOver⟩ | ⟨early, registers, puts, isOver⟩
        · have missing : final.lookup t = none := (congrArg (Registry.find? t) same).trans absent
          exact ⟨result, _, builds missing, by simp, congrArg (Registry.put result) same, isOver⟩
        · have there : final.lookup t = some early := by
            rw [Registry.lookup, puts, Registry.find?_put_self]
          exact ⟨early, _, outruns early there, registers, puts, isOver⟩
      have there : after.lookup t = some inst := by
        rw [Registry.lookup, puts, Registry.find?_put_self]
      have resolved := Resolved.built rfl found opens components registers isOver puts (.nothing rfl)
      refine ⟨_, inst, after, resolved, there, settles, ?_⟩
      intro α next
      rw [history, found, settles]
      simp [calls]

/-- Types that are resolved one after the other are resolved so. -/
theorem resolved_resolving (types : List Ty) (registry : Registry) :
    Resolved registry types ((resolving types).history registry) ((resolving types).run.run registry).2 := by
  induction types generalizing registry with
  | nil => exact .nothing rfl
  | cons t rest ih =>
    obtain ⟨calls, inst, after, resolved, -, settles, continues⟩ := resolves t registry
    rw [resolving, continues, run, RegistryM.run_bind _ settles]
    exact resolved.append (ih after)

end Client
end TypedWire
