import TypedWire.Proofs.DecoderParts
import TypedWire.Proofs.SteadySource
import Mathlib.Tactic.Choose

/-! A plan lays out what a decoder does with its source, read by read. Every decoder of a codec follows a
plan, so what holds of every plan holds of every codec. -/

namespace TypedWire

/-- The two reads that reach the stream. -/
inductive Fetch where
  | exactly
  | block
deriving DecidableEq, Repr

/-- The decoder that does the read. -/
def Fetch.decoder : Fetch → Nat → Decoder (List Byte)
  | .exactly => Decoder.exactly
  | .block => Decoder.block

/-- What a decoder does with its source. -/
inductive Plan (α : Type) where
  | done (result : Except DecodeError α)
  | offset (next : Nat → Plan α)
  | limits (next : DecodeLimits → Plan α)
  /-- Goes on with `count` bytes, read inside the components of `path`. -/
  | fetch (kind : Fetch) (path : List String) (count : Nat) (next : List Byte → Plan α)

namespace Plan

variable {α β : Type}

/-- The decoder that follows the plan. -/
def run : Plan α → Decoder α
  | .done (.ok value) => pure value
  | .done (.error error) => throw error
  | .offset next => Decoder.offset >>= fun place => (next place).run
  | .limits next => Decoder.limits >>= fun limits => (next limits).run
  | .fetch kind path count next =>
    path.foldr Decoder.labeled (kind.decoder count) >>= fun bytes => (next bytes).run

/-- One plan after the other. -/
def bind (second : α → Plan β) : Plan α → Plan β
  | .done (.ok value) => second value
  | .done (.error error) => .done (.error error)
  | .offset next => .offset fun place => (next place).bind second
  | .limits next => .limits fun limits => (next limits).bind second
  | .fetch kind path count next => .fetch kind path count fun bytes => (next bytes).bind second

/-- The plan inside a component. -/
def labeled (label : String) : Plan α → Plan α
  | .done (.ok value) => .done (.ok value)
  | .done (.error error) => .done (.error (error.labeled label))
  | .offset next => .offset fun place => (next place).labeled label
  | .limits next => .limits fun limits => (next limits).labeled label
  | .fetch kind path count next => .fetch kind (label :: path) count fun bytes => (next bytes).labeled label

theorem run_bind (first : Plan α) (second : α → Plan β) :
    (first.bind second).run = first.run >>= fun value => (second value).run := by
  induction first with
  | done result => cases result <;> rfl
  | offset next ih => simp only [bind, run, ih, bind_assoc]
  | limits next ih => simp only [bind, run, ih, bind_assoc]
  | fetch kind path count next ih => simp only [bind, run, ih, bind_assoc]

theorem run_labeled (label : String) (plan : Plan α) : (plan.labeled label).run = plan.run.labeled label := by
  induction plan with
  | done result => cases result <;> rfl
  | offset next ih => simp only [labeled, run, ih, Decoder.labeled_bind, Decoder.labeled_offset]
  | limits next ih => simp only [labeled, run, ih, Decoder.labeled_bind, Decoder.labeled_limits]
  | fetch kind path count next ih => simp only [labeled, run, ih, Decoder.labeled_bind, List.foldr_cons]

end Plan

namespace Decoder

variable {α β : Type}

/-- The decoder follows some plan. -/
def Planned (decoder : Decoder α) : Prop := ∃ plan : Plan α, plan.run = decoder

theorem planned_pure (value : α) : Planned (pure value) := ⟨.done (.ok value), rfl⟩

theorem planned_throw (error : DecodeError) : Planned (throw error : Decoder α) := ⟨.done (.error error), rfl⟩

theorem planned_offset : Planned offset := ⟨.offset fun place => .done (.ok place), bind_pure _⟩

theorem planned_limits : Planned limits := ⟨.limits fun limits => .done (.ok limits), bind_pure _⟩

theorem planned_exactly (count : Nat) : Planned (exactly count) :=
  ⟨.fetch .exactly [] count fun bytes => .done (.ok bytes), bind_pure _⟩

theorem planned_block (count : Nat) : Planned (block count) :=
  ⟨.fetch .block [] count fun bytes => .done (.ok bytes), bind_pure _⟩

theorem Planned.bind {first : Decoder α} {second : α → Decoder β} (one : Planned first)
    (two : ∀ value, Planned (second value)) : Planned (first >>= second) := by
  obtain ⟨plan, rfl⟩ := one
  choose plans runs using two
  refine ⟨plan.bind plans, ?_⟩
  rw [Plan.run_bind]
  simp only [runs]

theorem Planned.labeled {decoder : Decoder α} (label : String) (planned : Planned decoder) :
    Planned (decoder.labeled label) := by
  obtain ⟨plan, rfl⟩ := planned
  exact ⟨plan.labeled label, plan.run_labeled label⟩

theorem Planned.ite {condition : Prop} [Decidable condition] {yes no : Decoder α} (one : Planned yes)
    (other : Planned no) : Planned (if condition then yes else no) := by
  by_cases holds : condition
  · rwa [if_pos holds]
  · rwa [if_neg holds]

theorem planned_bounded (start value : Nat) : Planned (bounded start value) :=
  planned_limits.bind fun _ => (planned_pure _).ite (planned_throw _)

theorem Built.planned {decoder : Decoder α} (built : Built decoder) : Planned decoder := by
  induction built with
  | pure value => exact planned_pure value
  | throw error => exact planned_throw error
  | offset => exact planned_offset
  | bounded start value => exact planned_bounded start value
  | exactly count => exact planned_exactly count
  | block count => exact planned_block count
  | bind _ _ one two => exact one.bind two
  | labeled label _ ih => exact ih.labeled label

end Decoder

/-- Every codec reads by a plan. -/
theorem Codec.planned_decode {t : Ty} (codec : Codec t) : codec.decode.Planned := codec.built_decode.planned

end TypedWire
