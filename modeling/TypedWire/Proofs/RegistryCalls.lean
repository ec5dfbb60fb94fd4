import TypedWire.Proofs.RegistryTable

/-! What builds an instance for a type that has none is a client too, so calls nest as deep as it likes, and
it may register what it likes, for the type that is being built as well. The history of a client lists all
its calls, the nested ones included, in the order in which they return. -/

namespace TypedWire

/-- What a client does with a registry until it is done. -/
inductive Client : Type → Type 1 where
  | done {α : Type} (result : α) : Client α
  /-- Makes an instance of its own and goes on with it. This is no call on the registry. -/
  | make {α : Type} {t : Ty} (codec : Codec t) (components : List (Ty × Nat))
      (next : Instance t → Client α) : Client α
  | lookup {α : Type} (t : Ty) (next : Option (Instance t) → Client α) : Client α
  | register {α : Type} {t : Ty} (inst : Instance t) (next : Option (Instance t) → Client α) : Client α
  /-- Resolves a type, for which `build` builds an instance if there is none. -/
  | resolve {α : Type} (t : Ty) (build : Client (Instance t)) (next : Instance t → Client α) : Client α

/-- What a call asked of a registry, and the reply. -/
inductive Reply where
  | looked (t : Ty) (found : Option (Instance t))
  | registered (t : Ty) (inst : Instance t) (replaced : Option (Instance t))
  | resolved (t : Ty) (inst : Instance t)

/-- A call that has returned, with the registry when it began and when it returned. -/
structure Call where
  before : Registry
  reply : Reply
  after : Registry

namespace Reply

/-- The type has this instance by the call. -/
def Gives (reply : Reply) (t : Ty) (inst : Instance t) : Prop :=
  reply = .resolved t inst ∨ ∃ replaced, reply = .registered t inst replaced

/-- The call registers an instance for the type. -/
def Registers (reply : Reply) (t : Ty) : Prop := ∃ inst replaced, reply = .registered t inst replaced

/-- If the call asks for the type, this instance is the reply. -/
def Agrees (reply : Reply) (t : Ty) (inst : Instance t) : Prop :=
  (∀ other, reply = .resolved t other → other = inst) ∧ ∀ found, reply = .looked t found → found = some inst

end Reply

namespace Call

/-- A resolution of a type that had an instance when it began. -/
def isHit : Call → Bool
  | ⟨before, .resolved t _, _⟩ => (before.lookup t).isSome
  | _ => false

/-- A resolution of a type that had none. -/
def isMiss : Call → Bool
  | ⟨before, .resolved t _, _⟩ => (before.lookup t).isNone
  | _ => false

end Call

namespace Client

/-- What the client does, on a registry. -/
def run : {α : Type} → Client α → RegistryM α
  | _, .done result => pure result
  | _, .make codec components next => do (next (← RegistryM.instantiate codec components)).run
  | _, .lookup t next => do (next (← RegistryM.lookup t)).run
  | _, .register inst next => do (next (← RegistryM.register inst)).run
  | _, .resolve t build next => do (next (← RegistryM.settle t build.run)).run

/-- The registry in which an instance is built for a type that has none. -/
def opened (t : Ty) (registry : Registry) : Registry :=
  ((RegistryM.debug s!"miss for {t.name}, building").run registry).2

/-- The calls of the client, in the order in which they return. -/
def history : {α : Type} → Client α → Registry → List Call
  | _, .done _, _ => []
  | _, .make codec components next, registry =>
    let (inst, after) := (RegistryM.instantiate codec components).run registry
    (next inst).history after
  | _, .lookup t next, registry =>
    let (found, after) := (RegistryM.lookup t).run registry
    ⟨registry, .looked t found, after⟩ :: (next found).history after
  | _, .register (t := t) inst next, registry =>
    let (replaced, after) := (RegistryM.register inst).run registry
    ⟨registry, .registered t inst replaced, after⟩ :: (next replaced).history after
  | _, .resolve t build next, registry =>
    let nested := match registry.lookup t with
      | some _ => []
      | none => build.history (opened t registry)
    let (inst, after) := (RegistryM.settle t build.run).run registry
    nested ++ ⟨registry, .resolved t inst, after⟩ :: (next inst).history after

/-- The serial numbers of the instances that the client makes, nested builds included, as they are made. -/
def serials : {α : Type} → Client α → Registry → List Nat
  | _, .done _, _ => []
  | _, .make codec components next, registry =>
    let (inst, after) := (RegistryM.instantiate codec components).run registry
    inst.serial :: (next inst).serials after
  | _, .lookup t next, registry =>
    let (found, after) := (RegistryM.lookup t).run registry
    (next found).serials after
  | _, .register inst next, registry =>
    let (replaced, after) := (RegistryM.register inst).run registry
    (next replaced).serials after
  | _, .resolve t build next, registry =>
    let nested := match registry.lookup t with
      | some _ => []
      | none => build.serials (opened t registry)
    let (inst, after) := (RegistryM.settle t build.run).run registry
    nested ++ (next inst).serials after

/-- Builds the canonical codec of a type over the instances of its components. -/
def building : (t : Ty) → Client (Instance t)
  | .seq shape t => .resolve t (building t) fun element =>
    .make (.seq shape element.codec) [(t, element.serial)] .done
  | .map shape k v => .resolve k (building k) fun key => .resolve v (building v) fun value =>
    .make (.map shape key.codec value.codec) [(k, key.serial), (v, value.serial)] .done
  | .option t => .resolve t (building t) fun value => .make (.option value.codec) [(t, value.serial)] .done
  | .pair a b => .resolve a (building a) fun first => .resolve b (building b) fun second =>
    .make (.pair first.codec second.codec) [(a, first.serial), (b, second.serial)] .done
  | .triple a b c => .resolve a (building a) fun first => .resolve b (building b) fun second =>
    .resolve c (building c) fun third => .make (.triple first.codec second.codec third.codec)
      [(a, first.serial), (b, second.serial), (c, third.serial)] .done
  | .newtype decl t => .resolve t (building t) fun base =>
    match decl.standIn with
    | some standIn => .make (Codec.renamed decl standIn base.codec) [(t, base.serial)] fun early =>
      .register early fun _ => .make (Codec.renamed decl decl.codecName base.codec) [(t, base.serial)] .done
    | none => .make (Codec.renamed decl decl.codecName base.codec) [(t, base.serial)] .done
  | t => .make (Codec.canonical t) [] .done

/-- Resolves types one after the other. -/
def resolving : List Ty → Client Unit
  | [] => .done ()
  | t :: rest => .resolve t (building t) fun _ => resolving rest

theorem run_building (t : Ty) : (building t).run = RegistryM.build t := by
  induction t with
  | newtype decl t ih =>
    simp only [building, run, RegistryM.build, ih]
    congr 1
    funext base
    cases decl.standIn with
    | none => rfl
    | some standIn => rfl
  | seq shape t ih => simp only [building, run, RegistryM.build, ih, bind_pure]
  | option t ih => simp only [building, run, RegistryM.build, ih, bind_pure]
  | map shape k v ihk ihv => simp only [building, run, RegistryM.build, ihk, ihv, bind_pure]
  | pair a b iha ihb => simp only [building, run, RegistryM.build, iha, ihb, bind_pure]
  | triple a b c iha ihb ihc => simp only [building, run, RegistryM.build, iha, ihb, ihc, bind_pure]
  | _ => rfl

theorem run_resolving (types : List Ty) :
    (resolving types).run = types.forM fun t => discard (RegistryM.resolve t) := by
  induction types with
  | nil => rfl
  | cons t rest ih =>
    simp only [resolving, run, run_building, ih, RegistryM.resolve]
    rfl

end Client

namespace RegistryM

variable {α β : Type} {t : Ty} {registry between : Registry}

theorem run_bind {first : RegistryM α} {a : α} (second : α → RegistryM β)
    (ran : first.run registry = (a, between)) : (first >>= second).run registry = (second a).run between := by
  rw [StateT.run_bind, ran]
  rfl

theorem run_lookup (t : Ty) (registry : Registry) : (lookup t).run registry = (registry.lookup t, registry) := rfl

theorem run_register (inst : Instance t) (registry : Registry) :
    (register inst).run registry = (registry.lookup t,
      { ((debug s!"registering {inst.codec.describe} for {t.name}").run registry).2 with
        entries := Registry.put inst registry.entries }) := rfl

theorem run_settle_held {held : Instance t} (build : RegistryM (Instance t))
    (found : registry.lookup t = some held) :
    (settle t build).run registry = (held, { registry with hits := Registry.countUp registry.hits }) := by
  have looks := run_lookup t registry
  rw [found] at looks
  rw [settle, run_bind _ looks]
  rfl

/-- A type without an instance is resolved by building, unless it has come to have one by then. -/
theorem run_settle_missing (build : RegistryM (Instance t)) {built : Instance t}
    (missing : registry.lookup t = none) (builds : build.run (Client.opened t registry) = (built, between)) :
    (∀ held, between.lookup t = some held → (settle t build).run registry = (held,
      { ((debug s!"{t.name} resolved concurrently, discarding duplicate build").run between).2 with
        misses := Registry.countUp between.misses })) ∧
    (between.lookup t = none → (settle t build).run registry = (built,
      { between with
        entries := Registry.put built between.entries
        misses := Registry.countUp between.misses })) := by
  have looks := run_lookup t registry
  have looksAgain := run_lookup t between
  have opens : (debug s!"miss for {t.name}, building").run registry = ((), Client.opened t registry) := rfl
  rw [missing] at looks
  rw [settle, run_bind _ looks, run_bind _ opens, run_bind _ builds]
  constructor
  · intro held found
    rw [found] at looksAgain
    rw [run_bind _ looksAgain]
    rfl
  · intro nothing
    rw [nothing] at looksAgain
    rw [run_bind _ looksAgain]
    rfl

end RegistryM
end TypedWire
