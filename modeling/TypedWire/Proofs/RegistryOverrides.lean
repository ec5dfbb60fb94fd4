import TypedWire.Proofs.RegistryCoherence
import TypedWire.Proofs.RegistryResolution

/-! A registered instance is in all that is built over its type afterwards, and what was built before stays
as it is. Serial numbers tell that it is not inside that: instances are only made over earlier ones. -/

namespace TypedWire

open Registry

/-- The instance was made before the one of this serial number, over instances that were made before it was. -/
structure Instance.Made {t : Ty} (inst : Instance t) (serial : Nat) : Prop where
  self : inst.serial < serial
  slots : ∀ slot ∈ inst.components, slot.2 < inst.serial

/-- All instances of the registry have been made, in this order. -/
def Registry.Ordered (registry : Registry) : Prop :=
  ∀ t inst, registry.lookup t = some inst → inst.Made registry.nextSerial

theorem Instance.Made.mono {t : Ty} {inst : Instance t} {serial later : Nat} (made : inst.Made serial)
    (le : serial ≤ later) : inst.Made later := ⟨Nat.lt_of_lt_of_le made.self le, made.slots⟩

namespace Registry

variable {before after : Registry} {t : Ty} {inst : Instance t}

theorem Ordered.of_entries (ordered : before.Ordered) (same : after.entries = before.entries)
    (le : before.nextSerial ≤ after.nextSerial) : after.Ordered := by
  intro u held found
  rw [Registry.lookup, same] at found
  exact (ordered u held found).mono le

theorem Ordered.of_put (ordered : before.Ordered) (puts : after.entries = put inst before.entries)
    (made : inst.Made after.nextSerial) (le : before.nextSerial ≤ after.nextSerial) : after.Ordered := by
  intro u held found
  rw [Registry.lookup, puts] at found
  by_cases same : u = t
  · subst same
    rw [find?_put_self] at found
    cases found
    exact made
  · rw [find?_put_of_ne inst before.entries same] at found
    exact (ordered u held found).mono le

end Registry

/-- The client makes instances over instances that it was given, and registers none but instances that were made.
It starts where `serial` is the next serial number, and what it gives back is what `gives` says of that and the
serial number that is next by then. -/
inductive Client.Traceable : {α : Type} → (α → Nat → Prop) → Nat → Client α → Prop
  | done {α : Type} {gives : α → Nat → Prop} {serial : Nat} {result : α}
      (given : ∀ later, serial ≤ later → gives result later) : Traceable gives serial (.done result)
  | make {α : Type} {gives : α → Nat → Prop} {serial : Nat} {t : Ty} {codec : Codec t}
      {components : List (Ty × Nat)} {next : Instance t → Client α} (slots : ∀ slot ∈ components, slot.2 < serial)
      (each : ∀ later, serial ≤ later → Traceable gives (later + 1) (next ⟨later, codec, components⟩)) :
      Traceable gives serial (.make codec components next)
  | lookup {α : Type} {gives : α → Nat → Prop} {serial : Nat} {t : Ty} {next : Option (Instance t) → Client α}
      (each : ∀ later found, serial ≤ later → (∀ inst, found = some inst → inst.Made later) →
        Traceable gives later (next found)) : Traceable gives serial (.lookup t next)
  | register {α : Type} {gives : α → Nat → Prop} {serial : Nat} {t : Ty} {inst : Instance t}
      {next : Option (Instance t) → Client α} (made : inst.Made serial)
      (each : ∀ later replaced, serial ≤ later → (∀ inst, replaced = some inst → inst.Made later) →
        Traceable gives later (next replaced)) : Traceable gives serial (.register inst next)
  | resolve {α : Type} {gives : α → Nat → Prop} {serial : Nat} {t : Ty} {build : Client (Instance t)}
      {next : Instance t → Client α} (builds : Traceable Instance.Made serial build)
      (each : ∀ later inst, serial ≤ later → inst.Made later → Traceable gives later (next inst)) :
      Traceable gives serial (.resolve t build next)

namespace Client

/-- Such a client keeps the order. -/
theorem Traceable.ordered {α : Type} {gives : α → Nat → Prop} {serial : Nat} {client : Client α}
    (traceable : client.Traceable gives serial) (registry : Registry) (le : serial ≤ registry.nextSerial)
    (ordered : registry.Ordered) :
    gives (client.run.run registry).1 (client.run.run registry).2.nextSerial ∧
      (client.run.run registry).2.Ordered ∧ registry.nextSerial ≤ (client.run.run registry).2.nextSerial := by
  induction traceable generalizing registry with
  | done given => exact ⟨given _ le, ordered, Nat.le_refl _⟩
  | make slots each ih =>
    obtain ⟨given, ordered', le'⟩ := ih registry.nextSerial le
      { registry with nextSerial := registry.nextSerial + 1 } (Nat.le_refl _) (ordered.of_entries rfl (Nat.le_succ _))
    exact ⟨given, ordered', Nat.le_of_succ_le le'⟩
  | @lookup _ _ _ t next each ih =>
    exact ih registry.nextSerial (registry.lookup t) le (ordered t) registry (Nat.le_refl _) ordered
  | @register _ _ _ t inst next made each ih =>
    rw [run, RegistryM.run_bind _ (RegistryM.run_register inst registry)]
    exact ih registry.nextSerial (registry.lookup t) le (ordered t) _ (Nat.le_refl _)
      (ordered.of_put rfl (made.mono le) (Nat.le_refl _))
  | @resolve _ _ _ t build next builds each ihBuild ih =>
    -- Held, outrun or just built, the instance has been made by the time the resolution returns.
    obtain ⟨inst, after, settles, made, ordered', le'⟩ : ∃ (inst : Instance t) (after : Registry),
        (RegistryM.settle t build.run).run registry = (inst, after) ∧ inst.Made after.nextSerial ∧ after.Ordered ∧
          registry.nextSerial ≤ after.nextSerial := by
      cases found : registry.lookup t with
      | some held =>
        exact ⟨held, _, RegistryM.run_settle_held build.run found, ordered t held found,
          ordered.of_entries rfl (Nat.le_refl _), Nat.le_refl _⟩
      | none =>
        obtain ⟨made, ordered', le'⟩ := ihBuild (opened t registry) le (ordered.of_entries rfl (Nat.le_refl _))
        obtain ⟨outruns, puts⟩ := RegistryM.run_settle_missing build.run found rfl
        cases there : (build.run.run (opened t registry)).2.lookup t with
        | some held =>
          exact ⟨held, _, outruns held there, ordered' t held there, ordered'.of_entries rfl (Nat.le_refl _), le'⟩
        | none =>
          refine ⟨_, _, puts there, made, ?_, le'⟩
          exact Registry.Ordered.of_put ordered' rfl made (Nat.le_refl _)
    rw [run, RegistryM.run_bind _ settles]
    obtain ⟨given, final, le''⟩ := ih after.nextSerial inst (Nat.le_trans le le') made after (Nat.le_refl _) ordered'
    exact ⟨given, final, Nat.le_trans le' le''⟩

private theorem traceable_make {t : Ty} {codec : Codec t} {components : List (Ty × Nat)} {serial : Nat}
    (slots : ∀ slot ∈ components, slot.2 < serial) :
    (make codec components .done).Traceable Instance.Made serial := by
  refine .make slots ?_
  intro later le
  refine .done ?_
  intro last le'
  exact ⟨le', fun slot member => Nat.lt_of_lt_of_le (slots slot member) le⟩

theorem traceable_building (t : Ty) (serial : Nat) : (building t).Traceable Instance.Made serial := by
  induction t generalizing serial with
  | seq shape t ih =>
    refine .resolve (ih serial) ?_
    intro later element le made
    exact traceable_make (by simpa using made.self)
  | option t ih =>
    refine .resolve (ih serial) ?_
    intro later value le made
    exact traceable_make (by simpa using made.self)
  | map shape k v ihk ihv =>
    refine .resolve (ihk serial) ?_
    intro later key le made
    refine .resolve (ihv later) ?_
    intro last value le' made'
    exact traceable_make (by simpa using ⟨(made.mono le').self, made'.self⟩)
  | pair a b iha ihb =>
    refine .resolve (iha serial) ?_
    intro later first le made
    refine .resolve (ihb later) ?_
    intro last second le' made'
    exact traceable_make (by simpa using ⟨(made.mono le').self, made'.self⟩)
  | triple a b c iha ihb ihc =>
    refine .resolve (iha serial) ?_
    intro later first le made
    refine .resolve (ihb later) ?_
    intro last second le' made'
    refine .resolve (ihc last) ?_
    intro final third le'' made''
    exact traceable_make (by simpa using ⟨((made.mono le').mono le'').self, (made'.mono le'').self, made''.self⟩)
  | newtype decl t ih =>
    refine .resolve (ih serial) ?_
    intro later base le made
    cases standIn : decl.standIn with
    | none => exact traceable_make (by simpa using made.self)
    | some name =>
      refine .make (by simpa using made.self) ?_
      intro last le'
      refine .register ⟨Nat.lt_succ_self last, by simpa using Nat.lt_of_lt_of_le made.self le'⟩ ?_
      intro final replaced le'' _
      exact traceable_make (by simpa using Nat.lt_of_lt_of_le made.self (by omega))
  | _ => exact traceable_make (by simp)

theorem traceable_resolving (types : List Ty) (serial : Nat) :
    (resolving types).Traceable (fun _ _ => True) serial := by
  induction types generalizing serial with
  | nil => exact .done fun _ _ => trivial
  | cons t rest ih =>
    refine .resolve (traceable_building t serial) ?_
    intro later inst le made
    exact ih later

end Client

/-- Resolving a type gives its expansion, which is held from then on. -/
theorem RegistryM.resolve_unfolds (t : Ty) (registry : Registry) :
    ((resolve t).run registry).2.lookup t = some ((resolve t).run registry).1 ∧
      Unfolds registry ((resolve t).run registry).2 [t] := by
  obtain ⟨calls, inst, after, resolved, found, settles, -⟩ := Client.resolves t registry
  rw [Client.run_building] at settles
  rw [resolve, settles]
  exact ⟨found, resolved.unfolds⟩

/-- What is built over the instances of a registry has the one that is held for a type in the slots of that type. -/
theorem Instance.Over.serial_eq {registry : Registry} {t u : Ty} {inst : Instance t} {held : Instance u}
    (isOver : inst.Over registry) (found : registry.lookup u = some held) :
    ∀ slot ∈ inst.components, slot.1 = u → slot.2 = held.serial := by
  obtain ⟨part, parts, -, slots⟩ := isOver
  rw [slots]
  intro slot member same
  obtain ⟨v, component, rfl⟩ := List.mem_map.mp member
  subst same
  have held' := parts v component
  rw [found] at held'
  rw [Option.some.inj held']

/-- How a registry resolves types, whatever has been done with it, and what a registration changes of that. -/
structure Overridable (registry : Registry) : Prop where
  /-- What a type is resolved by is its expansion and is held from then on. All that was held still is. What is new
  is of the types that the expansion reaches, and over the instances that are held for the components. -/
  resolved : ∀ t : Ty,
    let ran := (RegistryM.resolve t).run registry
    ran.1.codec = registry.expansion t ∧ ran.2.lookup t = some ran.1 ∧ Unfolds registry ran.2 [t]
  /-- Until another instance is registered for its type, a registered instance is where expansions stop at the type,
  and it is in every slot of the type of what is built. -/
  used : ∀ (u : Ty) (inst : Instance u) {α : Type} (between : Client α) (t : Ty),
    let registered := ((RegistryM.register inst).run registry).2
    let before := (between.run.run registered).2
    let after := ((RegistryM.resolve t).run before).2
    (∀ call ∈ between.history registered, ¬ call.reply.Registers u) →
      before.expansion u = inst.codec ∧ after.lookup u = some inst ∧
        ∀ v made, before.lookup v = none → after.lookup v = some made →
          made.Over after ∧ ∀ slot ∈ made.components, slot.1 = u → slot.2 = inst.serial
  /-- What other types have stays the very instance that it is, whatever is done after the registration, until
  another one is registered for them. -/
  kept : ∀ (u : Ty) (inst : Instance u) (v : Ty) (held : Instance v), v ≠ u → registry.lookup v = some held →
    ∀ {α : Type} (later : Client α),
      let registered := ((RegistryM.register inst).run registry).2
      (∀ call ∈ later.history registered, ¬ call.reply.Registers v) →
        (∀ call ∈ later.history registered, call.reply.Agrees v held) ∧
          (later.run.run registered).2.lookup v = some held

theorem overridable (registry : Registry) : Overridable registry := by
  constructor
  · intro t ran
    obtain ⟨found, unfolds⟩ := RegistryM.resolve_unfolds t registry
    exact ⟨unfolds.codec_eq found, found, unfolds⟩
  · intro u inst α between t registered before after others
    have held : registered.lookup u = some inst := find?_put_self inst registry.entries
    have found : before.lookup u = some inst := ((between.chain_history registered).stays held others).2
    have unfolds : Unfolds before after [t] := (RegistryM.resolve_unfolds t before).2
    have still : after.lookup u = some inst := unfolds.kept u inst found
    refine ⟨Registry.expansion_of_found found, still, ?_⟩
    intro v made missing there
    have isOver := (unfolds.built v made missing there).2
    exact ⟨isOver, isOver.serial_eq still⟩
  · intro u inst v held different there α later registered others
    have found : registered.lookup v = some held := (find?_put_of_ne inst registry.entries different).trans there
    exact (later.chain_history registered).stays found others

/-- A registered instance is in what is built over its type afterwards, and what was built before stays as it was.
A new instance is not inside that: what a registry holds was made before it, over what was made earlier still. -/
theorem registrations_override :
    (∀ registry : Registry, Overridable registry) ∧
      ∀ {α : Type} {gives : α → Nat → Prop} (client : Client α), client.Traceable gives 0 →
        ∀ {u : Ty} (codec : Codec u) (components : List (Ty × Nat)),
          let registry := (client.run.run .empty).2
          let fresh := ((RegistryM.instantiate codec components).run registry).1
          ∀ v held, registry.lookup v = some held → held.Made fresh.serial := by
  refine ⟨overridable, ?_⟩
  intro α gives client traceable u codec components registry fresh v held found
  have ordered : Registry.empty.Ordered := nofun
  exact (traceable.ordered .empty (Nat.le_refl 0) ordered).2.1 v held found

/-- One codec for numbers is registered, and pairs of numbers are resolved over it. Another one that is registered
then is not inside the codec for pairs, which stays. -/
theorem registrations_override_pair :
    let number : Ty := .int .signed .four
    let client : Client Unit :=
      .make (.int .signed .four) [] fun first : Instance number =>
        .register first fun _ => .resolving [.pair number number]
    let registry := (client.run.run .empty).2
    let fresh := ((RegistryM.instantiate (.int .signed .four) []).run registry).1
    ∃ held, registry.lookup (.pair number number) = some held ∧ held.Made fresh.serial ∧
      ((RegistryM.register fresh).run registry).2.lookup (.pair number number) = some held := by
  intro number client registry fresh
  have traceable : client.Traceable (fun _ _ => True) 0 := by
    refine .make nofun ?_
    intro later _
    refine .register ⟨Nat.lt_succ_self later, nofun⟩ ?_
    intro last replaced _ _
    exact Client.traceable_resolving _ last
  refine ⟨_, rfl, ?_, ?_⟩
  · exact registrations_override.2 client traceable (.int .signed .four) [] (.pair number number) _ rfl
  · exact ((registrations_override.1 registry).kept number fresh (.pair number number) _ (by decide) rfl
      (Client.done ()) nofun).2

end TypedWire
