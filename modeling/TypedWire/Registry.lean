import TypedWire.Codec.Derived
import TypedWire.Log

/-! Resolving a type gives the instance that the registry holds for it, or builds one over the instances of
its component types, which are resolved in turn, and holds on to it. If the type being built has come to
have an instance by the time its build is done, that instance stays and the one just built is dropped. -/

namespace TypedWire

structure Instance (t : Ty) where
  /-- Tells it from all other instances of the registry that made it. -/
  serial : Nat
  codec : Codec t
  /-- The types and serial numbers of the instances that it was built over, in the order of slots. -/
  components : List (Ty × Nat)

structure Registry where
  entries : List ((t : Ty) × Instance t)
  hits : Nat
  misses : Nat
  log : Array LogEntry
  nextSerial : Nat

namespace Registry

def empty : Registry := ⟨[], 0, 0, #[], 0⟩

def find? (t : Ty) : List ((t : Ty) × Instance t) → Option (Instance t)
  | [] => none
  | ⟨u, inst⟩ :: rest => if same : u = t then some (same ▸ inst) else find? t rest

def lookup (registry : Registry) (t : Ty) : Option (Instance t) := find? t registry.entries

def size (registry : Registry) : Nat := registry.entries.length

def isEmpty (registry : Registry) : Bool := registry.entries.isEmpty

def put {t : Ty} (inst : Instance t) : List ((t : Ty) × Instance t) → List ((t : Ty) × Instance t)
  | [] => [⟨t, inst⟩]
  | entry :: rest => if entry.1 = t then ⟨t, inst⟩ :: rest else entry :: put inst rest

def countUp (count : Nat) : Nat := min (count + 1) (UInt64.size - 1)

def summary (registry : Registry) : String :=
  s!"CodecRegistry \x7b codecs: {registry.size}, stats: LookupStats \x7b hits: {registry.hits}, " ++
    s!"misses: {registry.misses}, "

end Registry

abbrev RegistryM := StateM Registry

namespace RegistryM

def debug (text : String) : RegistryM Unit :=
  modify fun registry => { registry with log := registry.log.push ⟨.debug, s!"[CodecRegistry] {text}"⟩ }

def instantiate {t : Ty} (codec : Codec t) (components : List (Ty × Nat)) : RegistryM (Instance t) :=
  modifyGet fun registry =>
    (⟨registry.nextSerial, codec, components⟩, { registry with nextSerial := registry.nextSerial + 1 })

def lookup (t : Ty) : RegistryM (Option (Instance t)) := do return (← get).lookup t

/-- Makes an instance the one of its type and gives the one that it replaces. -/
def register {t : Ty} (inst : Instance t) : RegistryM (Option (Instance t)) := do
  debug s!"registering {inst.codec.describe} for {t.name}"
  let replaced ← lookup t
  modify fun registry => { registry with entries := Registry.put inst registry.entries }
  return replaced

def countHit : RegistryM Unit :=
  modify fun registry => { registry with hits := Registry.countUp registry.hits }

def countMiss : RegistryM Unit :=
  modify fun registry => { registry with misses := Registry.countUp registry.misses }

/-- The instance of a type, with the way to build one if there is none. -/
def settle (t : Ty) (build : RegistryM (Instance t)) : RegistryM (Instance t) := do
  match ← lookup t with
  | some held =>
    countHit
    return held
  | none =>
    debug s!"miss for {t.name}, building"
    let built ← build
    match ← lookup t with
    | some held =>
      debug s!"{t.name} resolved concurrently, discarding duplicate build"
      countMiss
      return held
    | none =>
      modify fun registry => { registry with entries := Registry.put built registry.entries }
      countMiss
      return built

/-- Builds the canonical codec of a type over the instances of its components. -/
def build : (t : Ty) → RegistryM (Instance t)
  | .seq shape t => do
    let element ← settle t (build t)
    instantiate (.seq shape element.codec) [(t, element.serial)]
  | .map shape k v => do
    let key ← settle k (build k)
    let value ← settle v (build v)
    instantiate (.map shape key.codec value.codec) [(k, key.serial), (v, value.serial)]
  | .option t => do
    let value ← settle t (build t)
    instantiate (.option value.codec) [(t, value.serial)]
  | .pair a b => do
    let first ← settle a (build a)
    let second ← settle b (build b)
    instantiate (.pair first.codec second.codec) [(a, first.serial), (b, second.serial)]
  | .triple a b c => do
    let first ← settle a (build a)
    let second ← settle b (build b)
    let third ← settle c (build c)
    instantiate (.triple first.codec second.codec third.codec)
      [(a, first.serial), (b, second.serial), (c, third.serial)]
  | .newtype decl t => do
    let base ← settle t (build t)
    if let some standIn := decl.standIn then
      discard <| register (← instantiate (Codec.renamed decl standIn base.codec) [(t, base.serial)])
    instantiate (Codec.renamed decl decl.codecName base.codec) [(t, base.serial)]
  | t => instantiate (Codec.canonical t) []

def resolve (t : Ty) : RegistryM (Instance t) := settle t (build t)

end RegistryM
end TypedWire
