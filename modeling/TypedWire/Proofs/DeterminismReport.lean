import TypedWire.Codec.Bespoke
import TypedWire.Proofs.Standard
import Mathlib.Logic.Relation

/-! The verdict on a codec has the shape of the codec: its messages stand where a hashed container, a map or
a leaf with an objection stands, each once and in no other place. -/

namespace TypedWire

/-! ### Verdicts as trees -/

mutual

/-- The messages behind a reason, each with the labels that lead to it. -/
def Reason.messages : Reason → List (List String × String)
  | .message text => [([], text)]
  | .component label _ reasons => (Reason.allMessages reasons).map fun told => (label :: told.1, told.2)

/-- The messages behind reasons, in order. -/
def Reason.allMessages : List Reason → List (List String × String)
  | [] => []
  | reason :: rest => reason.messages ++ Reason.allMessages rest

end

theorem Reason.allMessages_append (front back : List Reason) :
    allMessages (front ++ back) = allMessages front ++ allMessages back := by
  induction front with
  | nil => rfl
  | cons reason rest ih => simp [allMessages, ih]

/-- The messages of a verdict, each with the labels that lead to it. -/
def NonDeterministic.messages (verdict : NonDeterministic) : List (List String × String) :=
  Reason.allMessages verdict.reasons

/-- The verdict `inner` stands in a verdict under the labels of `path`. -/
inductive NonDeterministic.Holds : (path : List String) → (inner outer : NonDeterministic) → Prop
  | here (verdict : NonDeterministic) : Holds [] verdict verdict
  | inside {label codec : String} {reasons : List Reason} {path : List String} {inner outer : NonDeterministic}
      (member : .component label codec reasons ∈ outer.reasons) (holds : Holds path inner ⟨codec, reasons⟩) :
      Holds (label :: path) inner outer

namespace Codec

/-! ### Positions in a codec -/

variable {t : Ty}

/-- The components for which a codec answers. A terse codec answers for itself alone. -/
def audited : {t : Ty} → Codec t → List (Slot × AnyCodec)
  | _, .terse _ _ _ => []
  | _, codec => codec.slots

/-- `part` stands in `whole` in the slots of `place`, from the outermost inwards. -/
inductive Occurs : (place : List Slot) → (part whole : AnyCodec) → Prop
  | here (whole : AnyCodec) : Occurs [] whole whole
  | inside {slot : Slot} {place : List Slot} {part component whole : AnyCodec}
      (member : (slot, component) ∈ whole.2.audited) (occurs : Occurs place part component) :
      Occurs (slot :: place) part whole

/-- The labels on the way to a place. -/
def labelsOf (place : List Slot) : List String := place.filterMap Slot.label?

/-- What a codec has against itself: a hashed set and a map the order in which they yield what they hold, a leaf
what it says. -/
def objection? : {t : Ty} → Codec t → Option String
  | _, .compact _ objection => objection
  | _, .terse _ objection _ => objection
  | _, .seq shape _ => if shape = .hashSet then some "HashSet iteration order depends on hashing" else none
  | _, .map shape _ _ => some s!"{shape.label} entry order is not part of the encoding"
  | _, _ => none

/-- The codec whose verdict a codec gives. A derived codec gives that of its base. -/
def verified : {t : Ty} → Codec t → AnyCodec
  | _, .derived _ codec _ _ => codec.verified
  | t, codec => ⟨t, codec⟩

/-- What a component that failed adds to the verdict on the codec around it. -/
def blame (entry : Slot × AnyCodec) : Option Reason :=
  match entry.1.label?, entry.2.2.determinism with
  | some label, .error cause => some (.component label cause.codec cause.reasons)
  | _, _ => none

/-- The reasons against a codec: its own objection, and then its components that failed, in the order of their
slots. -/
def report (codec : Codec t) : List Reason :=
  codec.objection?.toList.map .message ++ codec.audited.filterMap blame

theorem audited_induction {P : AnyCodec → Prop}
    (step : ∀ whole : AnyCodec, (∀ entry ∈ whole.2.audited, P entry.2) → P whole) (codec : AnyCodec) : P codec := by
  obtain ⟨t, codec⟩ := codec
  induction codec with
  | derived _ _ _ _ ih => exact step _ (by simpa [audited, slots] using ih)
  | seq _ _ ih => exact step _ (by simpa [audited, slots] using ih)
  | map _ _ _ ihk ihv => exact step _ (by simpa [audited, slots] using ⟨ihk, ihv⟩)
  | option _ ih => exact step _ (by simpa [audited, slots] using ih)
  | pair _ _ iha ihb => exact step _ (by simpa [audited, slots] using ⟨iha, ihb⟩)
  | triple _ _ _ iha ihb ihc => exact step _ (by simpa [audited, slots] using ⟨iha, ihb, ihc⟩)
  | _ => exact step _ (by simp [audited, slots])

/-- A codec answers for its base and has nothing to add, or for components under labels of their own. -/
theorem audited_kinds (codec : Codec t) :
    (∃ base : AnyCodec, codec.audited = [(.base, base)] ∧ codec.objection? = none ∧
        codec.determinism = base.2.determinism ∧ codec.verified = base.2.verified) ∨
      codec.verified = ⟨t, codec⟩ ∧ (codec.audited.map fun entry => entry.1.label?).Nodup ∧
        ∀ entry ∈ codec.audited, entry.1.label? ≠ none := by
  cases codec with
  | derived name codec toBase fromBase => exact .inl ⟨⟨_, codec⟩, rfl, rfl, rfl, rfl⟩
  | _ => exact .inr ⟨rfl, by simp [audited, slots, Slot.label?], by simp [audited, slots, Slot.label?]⟩

/-! ### Verdicts and reports -/

theorem order_eq_hashed_iff (shape : SeqShape) : shape.order = .hashed ↔ shape = .hashSet := by
  cases shape <;> simp [SeqShape.order]

/-- A component is added to a checklist with what it is blamed for. -/
theorem component_eq (slot : Slot) {label : String} (labeled : slot.label? = some label) (codec : AnyCodec)
    (list : Checklist) :
    list.component label codec.2.determinism = ⟨list.codec, list.reasons ++ [(slot, codec)].filterMap blame⟩ := by
  cases verdict : codec.2.determinism with
  | ok => simp [Checklist.component, blame, verdict, labeled]
  | error cause => simp [Checklist.component, blame, verdict, labeled]

/-- A codec fails if there is something in the report on the codec that it answers for, and then with this. -/
theorem determinism_eq (codec : Codec t) :
    codec.determinism = (⟨codec.verified.2.describe, codec.verified.2.report⟩ : Checklist).verdict := by
  induction codec with
  | derived name codec toBase fromBase ih => exact ih
  | compact name objection => cases objection <;> rfl
  | terse name objection codec => cases objection <;> rfl
  | seq shape codec =>
    rw [determinism, component_eq .element rfl ⟨_, codec⟩]
    by_cases hashed : shape = .hashSet
    · subst hashed
      rfl
    · have settled : shape.order ≠ .hashed := (order_eq_hashed_iff shape).not.mpr hashed
      simp only [if_neg settled, verified, report, objection?, if_neg hashed]
      rfl
  | map shape keyCodec valueCodec =>
    rw [determinism, component_eq .key rfl ⟨_, keyCodec⟩, component_eq .value rfl ⟨_, valueCodec⟩]
    simp only [List.append_assoc, ← List.filterMap_append]
    rfl
  | option codec =>
    rw [determinism, component_eq .value rfl ⟨_, codec⟩]
    rfl
  | pair first second =>
    rw [determinism, component_eq .first rfl ⟨_, first⟩, component_eq .second rfl ⟨_, second⟩]
    simp only [List.append_assoc, ← List.filterMap_append]
    rfl
  | triple first second third =>
    rw [determinism, component_eq .first rfl ⟨_, first⟩, component_eq .second rfl ⟨_, second⟩,
      component_eq .third rfl ⟨_, third⟩]
    simp only [List.append_assoc, ← List.filterMap_append]
    rfl
  | _ => rfl

theorem determinism_eq_ok_iff (codec : Codec t) : codec.determinism = .ok () ↔ codec.verified.2.report = [] := by
  rw [determinism_eq, Checklist.verdict_eq_ok_iff]

/-- A verdict that fails names the codec that was looked at and gives the report on it, which is not empty. -/
theorem eq_of_determinism {codec : Codec t} {verdict : NonDeterministic} (fails : codec.determinism = .error verdict) :
    verdict = ⟨codec.verified.2.describe, codec.verified.2.report⟩ ∧ codec.verified.2.report ≠ [] := by
  have found : codec.verified.2.report ≠ [] := by
    intro clear
    rw [(determinism_eq_ok_iff codec).mpr clear] at fails
    cases fails
  rw [determinism_eq, Checklist.verdict, if_neg (by simpa using found)] at fails
  cases fails
  exact ⟨rfl, found⟩

/-- What a report says of a component is the component's own verdict. -/
theorem mem_report_iff {codec : Codec t} {label name : String} {reasons : List Reason} :
    .component label name reasons ∈ codec.report ↔
      ∃ entry ∈ codec.audited, entry.1.label? = some label ∧ entry.2.2.determinism = .error ⟨name, reasons⟩ := by
  have blamed (entry : Slot × AnyCodec) : blame entry = some (.component label name reasons) ↔
      entry.1.label? = some label ∧ entry.2.2.determinism = .error ⟨name, reasons⟩ := by
    unfold blame
    rcases entry.1.label? with _ | found <;> rcases entry.2.2.determinism with ⟨name', reasons'⟩ | _ <;> simp
  simp [report, blamed]

/-! ### Messages and objections -/

/-- The messages of the verdict on a codec. -/
def told (codec : AnyCodec) : List (List String × String) := Reason.allMessages codec.2.verified.2.report

theorem told_of_determinism {codec : Codec t} {verdict : NonDeterministic}
    (fails : codec.determinism = .error verdict) : told ⟨t, codec⟩ = verdict.messages := by
  rw [(eq_of_determinism fails).1]
  rfl

private theorem allMessages_blamed {entries : List (Slot × AnyCodec)}
    (labeled : ∀ entry ∈ entries, entry.1.label? ≠ none) :
    Reason.allMessages (entries.filterMap blame) =
      entries.flatMap fun entry => (told entry.2).map fun told => (entry.1.label?.toList ++ told.1, told.2) := by
  induction entries with
  | nil => rfl
  | cons entry rest ih =>
    have later := ih fun other member => labeled other (List.mem_cons_of_mem _ member)
    obtain ⟨label, named⟩ := Option.ne_none_iff_exists'.mp (labeled entry (by simp))
    rw [List.flatMap_cons, ← later]
    cases verdict : entry.2.2.determinism with
    | ok =>
      have silent : told entry.2 = [] := by
        rw [told, (determinism_eq_ok_iff _).mp verdict]
        rfl
      simp [blame, named, verdict, silent]
    | error cause =>
      have tells := told_of_determinism verdict
      simp [blame, named, verdict, Reason.allMessages, Reason.messages, tells, NonDeterministic.messages]

/-- What is told of a codec is its own objection, and what is told of its components behind their labels. -/
theorem told_eq (whole : AnyCodec) :
    told whole = whole.2.objection?.toList.map (fun text => ([], text)) ++
      whole.2.audited.flatMap fun entry =>
        (told entry.2).map fun told => (entry.1.label?.toList ++ told.1, told.2) := by
  rcases whole.2.audited_kinds with ⟨base, alone, silent, -, same⟩ | ⟨plain, -, labeled⟩
  · rw [told, same, alone, silent]
    simp [told, Slot.label?]
  · have own : Reason.allMessages (whole.2.objection?.toList.map .message) =
        whole.2.objection?.toList.map fun text => ([], text) := by
      cases whole.2.objection? <;> rfl
    rw [told, plain, report, Reason.allMessages_append, own, allMessages_blamed labeled]

theorem occurs_iff {place : List Slot} {part whole : AnyCodec} :
    Occurs place part whole ↔ place = [] ∧ part = whole ∨
      ∃ entry ∈ whole.2.audited, ∃ rest, place = entry.1 :: rest ∧ Occurs rest part entry.2 := by
  constructor
  · rintro (_ | ⟨member, occurs⟩)
    · exact .inl ⟨rfl, rfl⟩
    · exact .inr ⟨_, member, _, rfl, occurs⟩
  · rintro (⟨rfl, rfl⟩ | ⟨entry, member, rest, rfl, occurs⟩)
    · exact .here part
    · exact .inside member occurs

theorem labelsOf_cons (slot : Slot) (place : List Slot) :
    labelsOf (slot :: place) = slot.label?.toList ++ labelsOf place := by
  cases named : slot.label? <;> simp [labelsOf, named]

/-- The messages stand where something in the codec has an objection. -/
theorem mem_told_iff (whole : AnyCodec) : ∀ path text, (path, text) ∈ told whole ↔
    ∃ place part, Occurs place part whole ∧ part.2.objection? = some text ∧ labelsOf place = path := by
  induction whole using audited_induction with
  | step whole ih =>
    intro path text
    rw [told_eq, List.mem_append, List.mem_flatMap]
    constructor
    · rintro (own | ⟨entry, member, later⟩)
      · obtain ⟨text', objects, same⟩ := List.mem_map.mp own
        cases same
        exact ⟨[], whole, .here whole, by simpa using objects, rfl⟩
      · obtain ⟨⟨path', text'⟩, tells, same⟩ := List.mem_map.mp later
        cases same
        obtain ⟨place, part, occurs, objects, rfl⟩ := (ih entry member _ _).mp tells
        exact ⟨entry.1 :: place, part, .inside member occurs, objects, labelsOf_cons _ _⟩
    · rintro ⟨place, part, occurs, objects, rfl⟩
      rcases occurs_iff.mp occurs with ⟨rfl, rfl⟩ | ⟨entry, member, rest, rfl, inside⟩
      · left
        exact List.mem_map.mpr ⟨text, by simpa using objects, rfl⟩
      · right
        have tells := (ih entry member (labelsOf rest) text).mpr ⟨rest, part, inside, objects, rfl⟩
        exact ⟨entry, member, List.mem_map.mpr ⟨_, tells, by rw [labelsOf_cons]⟩⟩

private theorem head_labeled {label : Option String} (labeled : label ≠ none) (path : List String) :
    (label.toList ++ path).head? = label := by
  obtain ⟨text, rfl⟩ := Option.ne_none_iff_exists'.mp labeled
  rfl

/-- No two messages stand in one place. -/
theorem nodup_told (whole : AnyCodec) : ((told whole).map (·.1)).Nodup := by
  induction whole using audited_induction with
  | step whole ih =>
    rcases whole.2.audited_kinds with ⟨base, alone, -, -, same⟩ | ⟨-, distinct, labeled⟩
    · rw [told, same]
      exact ih (.base, base) (by simp [alone])
    · have behind (entry : Slot × AnyCodec) (member : entry ∈ whole.2.audited) (path : List String)
          (tells : path ∈ ((told entry.2).map fun told => (entry.1.label?.toList ++ told.1, told.2)).map (·.1)) :
          path.head? = entry.1.label? := by
        simp only [List.map_map, List.mem_map, Function.comp_def] at tells
        obtain ⟨_, -, rfl⟩ := tells
        exact head_labeled (labeled entry member) _
      rw [told_eq, List.map_append, List.map_flatMap]
      refine List.nodup_append'.mpr ⟨?_, List.nodup_flatMap.mpr ⟨fun entry member => ?_, ?_⟩, ?_⟩
      · cases whole.2.objection? <;> simp
      · have moved := (ih entry member).map (List.append_right_injective entry.1.label?.toList)
        simpa [List.map_map, Function.comp_def] using moved
      · refine (List.pairwise_map.mp distinct).imp_of_mem fun {a b} memberA memberB different => ?_
        refine List.disjoint_left.mpr fun path first second => different ?_
        exact (behind a memberA path first).symm.trans (behind b memberB path second)
      · refine List.disjoint_left.mpr fun path own later => ?_
        obtain ⟨entry, member, tells⟩ := List.mem_flatMap.mp later
        obtain rfl : path = [] := by
          simp only [List.map_map, List.mem_map, Function.comp_def] at own
          obtain ⟨_, -, rfl⟩ := own
          rfl
        exact labeled entry member (behind entry member [] tells).symm

theorem eq_of_labelsOf (whole : AnyCodec) : ∀ {place place' : List Slot} {part part' : AnyCodec},
    Occurs place part whole → part.2.objection? ≠ none → Occurs place' part' whole → part'.2.objection? ≠ none →
      labelsOf place = labelsOf place' → place = place' := by
  induction whole using audited_induction with
  | step whole ih =>
    intro place place' part part' occurs objects occurs' objects' same
    rcases whole.2.audited_kinds with ⟨base, alone, silent, -, -⟩ | ⟨-, distinct, labeled⟩
    · rw [occurs_iff, alone] at occurs occurs'
      rcases occurs with ⟨-, rfl⟩ | ⟨_, member, rest, rfl, inside⟩
      · exact absurd silent objects
      rcases occurs' with ⟨-, rfl⟩ | ⟨_, member', rest', rfl, inside'⟩
      · exact absurd silent objects'
      obtain rfl := List.mem_singleton.mp member
      obtain rfl := List.mem_singleton.mp member'
      rw [ih (.base, base) (by simp [alone]) inside objects inside' objects' same]
    · rcases occurs_iff.mp occurs with ⟨rfl, rfl⟩ | ⟨entry, member, rest, rfl, inside⟩
      · rcases occurs_iff.mp occurs' with ⟨rfl, rfl⟩ | ⟨entry', member', rest', rfl, inside'⟩
        · rfl
        · have head := head_labeled (labeled entry' member') (labelsOf rest')
          rw [← labelsOf_cons, ← same] at head
          exact absurd head.symm (labeled entry' member')
      · have head := head_labeled (labeled entry member) (labelsOf rest)
        rw [← labelsOf_cons, same] at head
        rcases occurs_iff.mp occurs' with ⟨rfl, rfl⟩ | ⟨entry', member', rest', rfl, inside'⟩
        · exact absurd head.symm (labeled entry member)
        · have head' := head_labeled (labeled entry' member') (labelsOf rest')
          rw [← labelsOf_cons] at head'
          obtain rfl := List.inj_on_of_nodup_map distinct member member' (head.symm.trans head')
          rw [labelsOf_cons, labelsOf_cons] at same
          rw [ih entry member inside objects inside' objects' (List.append_cancel_left same)]

/-! ### Verdicts inside verdicts -/

theorem determinism_ok_iff (codec : Codec t) : codec.determinism = .ok () ↔
    codec.objection? = none ∧ ∀ entry ∈ codec.audited, entry.2.2.determinism = .ok () := by
  rcases codec.audited_kinds with ⟨base, alone, silent, same, -⟩ | ⟨plain, -, labeled⟩
  · simp [same, alone, silent]
  · have passes (entry : Slot × AnyCodec) (member : entry ∈ codec.audited) :
        blame entry = none ↔ entry.2.2.determinism = .ok () := by
      obtain ⟨label, named⟩ := Option.ne_none_iff_exists'.mp (labeled entry member)
      cases verdict : entry.2.2.determinism <;> simp [blame, named, verdict]
    rw [determinism_eq_ok_iff, plain, report, List.append_eq_nil_iff, List.filterMap_eq_nil_iff]
    refine and_congr ?_ (forall₂_congr passes)
    cases codec.objection? <;> simp

/-- A codec passes if nothing in it has an objection. -/
theorem determinism_ok_iff_occurs (whole : AnyCodec) : whole.2.determinism = .ok () ↔
    ∀ place part, Occurs place part whole → part.2.objection? = none := by
  induction whole using audited_induction with
  | step whole ih =>
    rw [determinism_ok_iff]
    constructor
    · rintro ⟨silent, pass⟩ place part occurs
      rcases occurs_iff.mp occurs with ⟨-, rfl⟩ | ⟨entry, member, rest, -, inside⟩
      · exact silent
      · exact (ih entry member).mp (pass entry member) rest part inside
    · intro silent
      refine ⟨silent [] whole (.here whole), fun entry member => (ih entry member).mpr fun place part occurs => ?_⟩
      exact silent (entry.1 :: place) part (.inside member occurs)

theorem determinism_ok_of_occurs {place : List Slot} {part whole : AnyCodec} (occurs : Occurs place part whole)
    (passes : whole.2.determinism = .ok ()) : part.2.determinism = .ok () := by
  induction occurs with
  | here whole => exact passes
  | inside member _ ih => exact ih (((determinism_ok_iff _).mp passes).2 _ member)

/-- What a verdict gives is the report on the codec looked at. -/
theorem reasons_eq {codec : Codec t} (plain : codec.verified = ⟨t, codec⟩) {verdict : NonDeterministic}
    (fails : codec.determinism = .error verdict) : verdict.reasons = codec.report := by
  rw [(eq_of_determinism fails).1, plain]

/-- A verdict inside the verdict on a codec is that on something in the codec. -/
theorem occurs_of_holds (whole : AnyCodec) : ∀ {path : List String} {verdict cause : NonDeterministic},
    whole.2.determinism = .error verdict → NonDeterministic.Holds path cause verdict →
      ∃ place part, Occurs place part whole ∧ part.2.determinism = .error cause ∧ labelsOf place = path := by
  induction whole using audited_induction with
  | step whole ih =>
    intro path verdict cause fails holds
    rcases whole.2.audited_kinds with ⟨base, alone, -, same, -⟩ | ⟨plain, -, -⟩
    · have member : (.base, base) ∈ whole.2.audited := by simp [alone]
      obtain ⟨place, part, occurs, failed, rfl⟩ := ih (.base, base) member (same.symm.trans fails) holds
      exact ⟨.base :: place, part, .inside member occurs, failed, rfl⟩
    · obtain _ | ⟨member, holds⟩ := holds
      · exact ⟨[], whole, .here whole, fails, rfl⟩
      · rw [reasons_eq plain fails] at member
        obtain ⟨entry, member, named, failed⟩ := mem_report_iff.mp member
        obtain ⟨place, part, occurs, failed', rfl⟩ := ih entry member failed holds
        exact ⟨entry.1 :: place, part, .inside member occurs, failed', by simp [labelsOf_cons, named]⟩

theorem holds_of_component {whole component : AnyCodec} {slot : Slot} {path : List String}
    {verdict inner cause : NonDeterministic} (member : (slot, component) ∈ whole.2.audited)
    (fails : whole.2.determinism = .error verdict) (failed : component.2.determinism = .error inner)
    (holds : NonDeterministic.Holds path cause inner) :
    NonDeterministic.Holds (slot.label?.toList ++ path) cause verdict := by
  rcases whole.2.audited_kinds with ⟨base, alone, -, same, -⟩ | ⟨plain, -, labeled⟩
  · rw [alone, List.mem_singleton] at member
    cases member
    cases failed.symm.trans (same.symm.trans fails)
    exact holds
  · obtain ⟨label, named⟩ := Option.ne_none_iff_exists'.mp (labeled _ member)
    have blamed : .component label inner.codec inner.reasons ∈ verdict.reasons := by
      rw [reasons_eq plain fails]
      exact mem_report_iff.mpr ⟨_, member, named, failed⟩
    rw [named]
    exact .inside blamed holds

/-- The verdict on whatever failed in a codec stands in the verdict on the codec. -/
theorem holds_of_occurs {place : List Slot} {part whole : AnyCodec} {cause : NonDeterministic}
    (occurs : Occurs place part whole) (failed : part.2.determinism = .error cause) {verdict : NonDeterministic}
    (fails : whole.2.determinism = .error verdict) : NonDeterministic.Holds (labelsOf place) cause verdict := by
  induction occurs generalizing verdict with
  | here whole =>
    cases failed.symm.trans fails
    exact .here cause
  | @inside slot place part component whole member occurs ih =>
    cases failed' : component.2.determinism with
    | ok =>
      rw [determinism_ok_of_occurs occurs failed'] at failed
      cases failed
    | error inner =>
      rw [labelsOf_cons]
      exact holds_of_component member fails failed' (ih failed failed')

/-- Whoever follows the first causes of a verdict comes to one that has no cause, and that has a message. -/
theorem exists_message (whole : AnyCodec) : ∀ {verdict : NonDeterministic}, whole.2.determinism = .error verdict →
    ∃ last, Relation.ReflTransGen (fun outer inner => outer.firstCause? = some inner) verdict last ∧
      last.firstCause? = none ∧ ∃ text, .message text ∈ last.reasons := by
  induction whole using audited_induction with
  | step whole ih =>
    intro verdict fails
    rcases whole.2.audited_kinds with ⟨base, alone, -, same, -⟩ | ⟨plain, -, -⟩
    · exact ih (.base, base) (by simp [alone]) (same.symm.trans fails)
    · have reasons := reasons_eq plain fails
      have found := (eq_of_determinism fails).2
      rw [plain] at found
      cases causes : verdict.firstCause? with
      | none =>
        obtain ⟨reason, others, given⟩ := List.exists_cons_of_ne_nil found
        refine ⟨verdict, .refl, causes, ?_⟩
        rw [NonDeterministic.firstCause?, reasons, given, List.findSome?_cons] at causes
        cases reason with
        | message text => exact ⟨text, by simp [reasons, given]⟩
        | component label name inner => cases causes
      | some cause =>
        obtain ⟨reason, member, caused⟩ := List.exists_of_findSome?_eq_some causes
        cases reason with
        | message text => cases caused
        | component label name inner =>
          cases caused
          rw [reasons] at member
          obtain ⟨entry, member, -, failed⟩ := mem_report_iff.mp member
          obtain ⟨last, follows, ended, text, told⟩ := ih entry member failed
          exact ⟨last, .head causes follows, ended, text, told⟩

/-! ### Complete reports -/

/-- The verdict is the codec's own tree of objections. -/
structure Reports (whole : AnyCodec) (verdict : NonDeterministic) : Prop where
  /-- There is a message for each objection, under the labels that lead to it, and no other. -/
  told : ∀ path text, (path, text) ∈ verdict.messages ↔
    ∃ place part, Occurs place part whole ∧ part.2.objection? = some text ∧ labelsOf place = path
  once : (verdict.messages.map (·.1)).Nodup
  /-- The labels tell objections apart. -/
  apart : ∀ {place place' : List Slot} {part part' : AnyCodec}, Occurs place part whole →
    part.2.objection? ≠ none → Occurs place' part' whole → part'.2.objection? ≠ none →
      labelsOf place = labelsOf place' → place = place'
  /-- There is a verdict inside for each part that failed, under the labels that lead to it, and no other. -/
  causes : ∀ path cause, NonDeterministic.Holds path cause verdict ↔
    ∃ place part, Occurs place part whole ∧ part.2.determinism = .error cause ∧ labelsOf place = path
  /-- Each of them names the codec looked at, with its own objection first and then its components that failed. -/
  shape : ∀ place part cause, Occurs place part whole → part.2.determinism = .error cause →
    cause = ⟨part.2.verified.2.describe, part.2.verified.2.report⟩
  /-- The first causes end at a message. -/
  traced : ∃ last, Relation.ReflTransGen (fun outer inner => outer.firstCause? = some inner) verdict last ∧
    last.firstCause? = none ∧ ∃ text, .message text ∈ last.reasons

/-- A codec is deterministic if no hashed set, no map and no leaf with an objection stands in it. Otherwise the
verdict on it is the tree of these objections. -/
theorem determinism_reported (codec : Codec t) :
    (codec.determinism = .ok () ↔ ∀ place part, Occurs place part ⟨t, codec⟩ → part.2.objection? = none) ∧
      ∀ verdict, codec.determinism = .error verdict → Reports ⟨t, codec⟩ verdict := by
  refine ⟨determinism_ok_iff_occurs ⟨t, codec⟩, fun verdict fails => ?_⟩
  have messages := told_of_determinism fails
  constructor
  · rw [← messages]
    exact mem_told_iff ⟨t, codec⟩
  · rw [← messages]
    exact nodup_told ⟨t, codec⟩
  · exact eq_of_labelsOf ⟨t, codec⟩
  · intro path cause
    constructor
    · exact occurs_of_holds ⟨t, codec⟩ fails
    · rintro ⟨place, part, occurs, failed, rfl⟩
      exact holds_of_occurs occurs failed fails
  · intro place part inner _ failed
    exact (eq_of_determinism failed).1
  · exact exists_message ⟨t, codec⟩ fails

/-- A sorted set that is written as a hashed one, and a map to a leaf that objects. -/
theorem determinism_reported_pair :
    Reports ⟨_, .pair Bespoke.frozenSet (.map .sorted .text Bespoke.unpromised)⟩
      ⟨"PairCodec(FrozenSetCodec(SeqCodec<HashSet>(U8Codec)), MapCodec<BTreeMap>(StringCodec, OpaqueCodec))",
        [.component "first" "SeqCodec<HashSet>(U8Codec)" [.message "HashSet iteration order depends on hashing"],
        .component "second" "MapCodec<BTreeMap>(StringCodec, OpaqueCodec)"
          [.message "BTreeMap entry order is not part of the encoding",
          .component "value" "OpaqueCodec" [.message "opaque payload"]]]⟩ :=
  (determinism_reported _).2 _ rfl

end Codec
end TypedWire
