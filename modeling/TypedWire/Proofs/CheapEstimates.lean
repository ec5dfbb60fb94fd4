import TypedWire.Proofs.SizeEstimation

/-! Observing the size of a value visits codecs with the values that they are given. The value is cheap if
no visit is to a container, to a codec that finds its size by encoding or to a mapping that refuses. -/

namespace TypedWire

namespace Output

variable {α β γ : Type}

/-- The output with several items, or none, in the place of each. -/
def expand (f : α → List β) (output : Output α) : Output β := ⟨output.items.flatMap f, output.failure⟩

theorem expand_andThen (f : α → List β) (first second : Output α) :
    (first.andThen second).expand f = (first.expand f).andThen (second.expand f) := by
  obtain ⟨items, failure⟩ := first
  cases failure with
  | none => simp [andThen, expand]
  | some error => rfl

theorem expand_concat (f : α → List β) (walk : γ → Output α) (elements : List γ) :
    (concat walk elements).expand f = concat (fun element => (walk element).expand f) elements := by
  induction elements with
  | nil => rfl
  | cons element rest ih => rw [concat_cons, expand_andThen, ih, concat_cons]

theorem length_expand_le {f : α → List β} (few : ∀ item, (f item).length ≤ 1) (output : Output α) :
    (output.expand f).items.length ≤ output.items.length := by
  obtain ⟨items, failure⟩ := output
  simp only [expand]
  induction items with
  | nil => exact Nat.le_refl 0
  | cons item rest ih =>
    have := few item
    rw [List.flatMap_cons, List.length_append, List.length_cons]
    omega

theorem expand_emit (f : α → List β) (item : α) : (emit item).expand f = ⟨f item, none⟩ := by
  simp [expand, emit]

theorem ofExcept_emit (result : Except EncodeError α) (f : β → List α) :
    ofExcept result emit = (⟨result.toOption.toList, none⟩ : Output α).andThen
      ((ofExcept result fun _ => (done : Output β)).expand f) := by
  cases result <;> rfl

/-- Where items of some kind are the only way to fail, two outputs are free of them if each of them is. -/
theorem forall_mem_andThen {P : α → Prop} {first second : Output α}
    (complete : (∀ item ∈ first.items, P item) → first.failure = none) :
    (∀ item ∈ (first.andThen second).items, P item) ↔
      (∀ item ∈ first.items, P item) ∧ ∀ item ∈ second.items, P item := by
  cases failed : first.failure with
  | none => simp [andThen, failed, or_imp, forall_and]
  | some error =>
    rw [failed] at complete
    simp only [andThen, failed]
    constructor
    · intro each
      cases complete each
    · exact And.left

/-- The output comes to its end, in at most `count` items. -/
structure Within (count : Nat) (output : Output α) : Prop where
  complete : output.failure = none
  few : output.items.length ≤ count

theorem within_emit (item : α) : Within 1 (emit item) := ⟨rfl, Nat.le_refl 1⟩

theorem Within.andThen {m n : Nat} {first second : Output α} (one : Within m first) (two : Within n second) :
    Within (m + n) (first.andThen second) := by
  obtain ⟨complete, few⟩ := one
  obtain ⟨complete', few'⟩ := two
  simp only [Output.andThen, complete]
  refine ⟨complete', ?_⟩
  rw [List.length_append]
  exact Nat.add_le_add few few'

theorem Within.after_emit {count : Nat} {output : Output α} (within : Within count output) (item : α) :
    Within (count + 1) ((emit item).andThen output) := by
  rw [Nat.add_comm]
  exact (within_emit item).andThen within

end Output

namespace Codec

/-! ### Visits -/

/-- A codec with a value that it is given. -/
structure Visit where
  {t : Ty}
  codec : Codec t
  value : t.Value

/-- The sizes that a codec reports itself, apart from what its components report. -/
def reports : {t : Ty} → Codec t → t.Value → List Nat
  | _, .int _ w, _ => [w.bytes]
  | _, .float p, _ => [p.width.bytes]
  | _, .bool, _ => [1]
  | _, .unit, _ => []
  | _, .never, v => v.elim
  | _, .text, v => [payloadSize (Utf8.encode v).length]
  | _, .bytes, v => [payloadSize v.length]
  | _, .compact name objection, v => ((Codec.compact name objection).encodedSize v).toOption.toList
  | _, .derived _ _ _ _, _ => []
  | _, .terse _ _ codec, v => (codec.encodedSize v).toOption.toList
  | _, .seq _ _, elements => [Varint.encodedLength elements.length]
  | _, .map _ _ _, entries => [Varint.encodedLength entries.length]
  | _, .option _, _ => [1]
  | _, .pair _ _, _ => []
  | _, .triple _ _ _, _ => []

/-- The visits that observing a value comes to, in order, and what ends them early. -/
def visits : {t : Ty} → Codec t → t.Value → Output Visit
  | _, .derived name codec toBase fromBase, v =>
    (Output.emit ⟨.derived name codec toBase fromBase, v⟩).andThen (match toBase v with
      | .ok base => codec.visits base
      | .error refusal => .fail (.mapping refusal))
  | _, .compact name objection, v =>
    (Output.emit ⟨.compact name objection, v⟩).andThen
      (.ofExcept ((Codec.compact name objection).encodedSize v) fun _ => .done)
  | _, .terse name objection codec, v =>
    (Output.emit ⟨.terse name objection codec, v⟩).andThen (.ofExcept (codec.encodedSize v) fun _ => .done)
  | _, .seq shape codec, elements =>
    (Output.emit ⟨.seq shape codec, elements⟩).andThen (.concat codec.visits elements)
  | _, .map shape k v, entries =>
    (Output.emit ⟨.map shape k v, entries⟩).andThen
      (.concat (fun entry => (k.visits entry.1).andThen (v.visits entry.2)) entries)
  | _, .option codec, none => .emit ⟨.option codec, none⟩
  | _, .option codec, some inner => (Output.emit ⟨.option codec, some inner⟩).andThen (codec.visits inner)
  | _, .pair a b, v => (Output.emit ⟨.pair a b, v⟩).andThen ((a.visits v.1).andThen (b.visits v.2))
  | _, .triple a b c, v =>
    (Output.emit ⟨.triple a b c, v⟩).andThen
      ((a.visits v.1).andThen ((b.visits v.2.1).andThen (c.visits v.2.2)))
  | _, codec, v => .emit ⟨codec, v⟩

/-- What is observed is what the visits report. -/
theorem observe_eq_visits {t : Ty} (codec : Codec t) (v : t.Value) :
    codec.observe v = (codec.visits v).expand fun visit => visit.codec.reports visit.value := by
  induction codec with
  | never => exact v.elim
  | compact name objection =>
    rw [visits, observe, Output.expand_andThen, Output.expand_emit]
    exact Output.ofExcept_emit _ _
  | terse name objection codec ih =>
    rw [visits, observe, Output.expand_andThen, Output.expand_emit]
    exact Output.ofExcept_emit _ _
  | derived name codec toBase fromBase ih =>
    rw [visits, observe, Output.expand_andThen, Output.expand_emit]
    cases toBase v with
    | ok base => exact ih base
    | error refusal => rfl
  | seq shape codec ih =>
    rw [visits, observe, Output.expand_andThen, Output.expand_concat, funext ih]
    rfl
  | map shape k v ihk ihv =>
    rw [visits, observe, Output.expand_andThen, Output.expand_concat]
    simp only [ihk, ihv, Output.expand_andThen]
    rfl
  | option codec ih =>
    cases v with
    | none => rfl
    | some inner =>
      rw [visits, observe, Output.expand_andThen, ih]
      rfl
  | pair a b iha ihb =>
    rw [visits, observe, Output.expand_andThen, Output.expand_andThen, iha, ihb]
    rfl
  | triple a b c iha ihb ihc =>
    rw [visits, observe, Output.expand_andThen, Output.expand_andThen, Output.expand_andThen, iha, ihb, ihc]
    rfl
  | _ => rfl

theorem length_reports_le {t : Ty} (codec : Codec t) (v : t.Value) : (codec.reports v).length ≤ 1 := by
  cases codec with
  | never => exact v.elim
  | compact name objection =>
    rw [reports]
    exact Option.length_toList_le
  | terse name objection codec =>
    rw [reports]
    exact Option.length_toList_le
  | _ => simp [reports]

theorem length_observe_le {t : Ty} (codec : Codec t) (v : t.Value) :
    (codec.observe v).items.length ≤ (codec.visits v).items.length := by
  rw [observe_eq_visits]
  exact Output.length_expand_le (fun visit : Visit => length_reports_le visit.codec visit.value) _

/-! ### Cheap values -/

/-- The visit takes steps that the codec alone does not bound, or ends in a refusal. -/
inductive Visit.Costly : Visit → Prop
  | seq (shape : SeqShape) {element : Ty} (codec : Codec element) (elements : List element.Value) :
      Costly ⟨.seq shape codec, elements⟩
  | map (shape : MapShape) {k v : Ty} (key : Codec k) (value : Codec v) (entries : List (k.Value × v.Value)) :
      Costly ⟨.map shape key value, entries⟩
  | compact (name : String) (objection : Option String) (v : Word .four) : Costly ⟨.compact name objection, v⟩
  | terse (name : String) (objection : Option String) {t : Ty} (codec : Codec t) (v : t.Value) :
      Costly ⟨.terse name objection codec, v⟩
  | refusal {base target : Ty} {name : String} {codec : Codec base} {toBase : target.Value → Except Refusal base.Value}
      {fromBase : base.Value → Except String target.Value} {v : target.Value} {refusal : Refusal}
      (refused : toBase v = .error refusal) : Costly ⟨.derived name codec toBase fromBase, v⟩

/-- How many codecs the tree is made of. -/
def nodes : {t : Ty} → Codec t → Nat
  | _, .derived _ codec _ _ => codec.nodes + 1
  | _, .terse _ _ codec => codec.nodes + 1
  | _, .seq _ codec => codec.nodes + 1
  | _, .map _ k v => k.nodes + v.nodes + 1
  | _, .option codec => codec.nodes + 1
  | _, .pair a b => a.nodes + b.nodes + 1
  | _, .triple a b c => a.nodes + b.nodes + c.nodes + 1
  | _, _ => 1

/-- A walk over a cheap value comes to its end, in no more visits than there are codecs in the tree. -/
theorem visits_of_isCheap {t : Ty} {codec : Codec t} {v : t.Value} (cheap : codec.isCheap v = true) :
    (codec.visits v).Within codec.nodes := by
  induction codec with
  | never => exact v.elim
  | compact name objection => cases cheap
  | terse name objection codec ih => cases cheap
  | seq shape codec ih => cases cheap
  | map shape key value ihk ihv => cases cheap
  | derived name codec toBase fromBase ih =>
    rw [isCheap] at cheap
    rw [visits, nodes]
    cases mapped : toBase v with
    | error refusal =>
      rw [mapped] at cheap
      cases cheap
    | ok base =>
      rw [mapped] at cheap
      exact (ih cheap).after_emit _
  | option codec ih =>
    cases v with
    | none => exact ⟨rfl, Nat.le_add_left 1 _⟩
    | some inner => exact (ih cheap).after_emit _
  | pair a b iha ihb =>
    rw [isCheap, Bool.and_eq_true] at cheap
    exact ((iha cheap.1).andThen (ihb cheap.2)).after_emit _
  | triple a b c iha ihb ihc =>
    rw [isCheap, Bool.and_eq_true, Bool.and_eq_true] at cheap
    rw [nodes, Nat.add_assoc a.nodes]
    exact ((iha cheap.1.1).andThen ((ihb cheap.1.2).andThen (ihc cheap.2))).after_emit _
  | _ => exact Output.within_emit _

section

variable {visit : Visit} {below : Output Visit} {cheap : Bool}

private theorem forall_mem_emit_andThen {P : Visit → Prop} :
    (∀ each ∈ ((Output.emit visit).andThen below).items, P each) ↔ P visit ∧ ∀ each ∈ below.items, P each := by
  simp [Output.emit, Output.andThen]

private theorem cheap_iff_of_costly (costly : visit.Costly) (dear : cheap = false) :
    cheap = true ↔ ∀ each ∈ ((Output.emit visit).andThen below).items, ¬each.Costly := by
  rw [dear, forall_mem_emit_andThen]
  simp [costly]

private theorem cheap_iff_of_plain (plain : ¬visit.Costly)
    (same : cheap = true ↔ ∀ each ∈ below.items, ¬each.Costly) :
    cheap = true ↔ ∀ each ∈ ((Output.emit visit).andThen below).items, ¬each.Costly := by
  rw [forall_mem_emit_andThen, same]
  simp [plain]

private theorem cheap_iff_of_leaf (plain : ¬visit.Costly) :
    true = true ↔ ∀ each ∈ (Output.emit visit).items, ¬each.Costly := by
  simp [Output.emit, plain]

end

theorem not_costly_derived {base target : Ty} {name : String} {codec : Codec base}
    {toBase : target.Value → Except Refusal base.Value} {fromBase : base.Value → Except String target.Value}
    {v : target.Value} {inner : base.Value} (mapped : toBase v = .ok inner) :
    ¬Visit.Costly ⟨.derived name codec toBase fromBase, v⟩ := by
  rintro (_ | _ | _ | _ | refused)
  cases mapped.symm.trans refused

/-- A value is cheap exactly if the walk over it comes to no costly codec. -/
theorem isCheap_iff {t : Ty} (codec : Codec t) (v : t.Value) :
    codec.isCheap v = true ↔ ∀ visit ∈ (codec.visits v).items, ¬visit.Costly := by
  induction codec with
  | never => exact v.elim
  | compact name objection => exact cheap_iff_of_costly (.compact name objection v) rfl
  | terse name objection codec ih => exact cheap_iff_of_costly (.terse name objection codec v) rfl
  | seq shape codec ih => exact cheap_iff_of_costly (.seq shape codec v) rfl
  | map shape key value ihk ihv => exact cheap_iff_of_costly (.map shape key value v) rfl
  | derived name codec toBase fromBase ih =>
    rw [visits, isCheap]
    cases mapped : toBase v with
    | error refusal => exact cheap_iff_of_costly (.refusal mapped) rfl
    | ok base => exact cheap_iff_of_plain (not_costly_derived mapped) (ih base)
  | option codec ih =>
    cases v with
    | none => exact cheap_iff_of_leaf nofun
    | some inner => exact cheap_iff_of_plain nofun (ih inner)
  | pair a b iha ihb =>
    -- A part that is free of costly codecs is walked to its end, so that the next one is walked as well.
    have complete (free : ∀ visit ∈ (a.visits v.1).items, ¬visit.Costly) : (a.visits v.1).failure = none :=
      (visits_of_isCheap ((iha v.1).mpr free)).complete
    refine cheap_iff_of_plain nofun ?_
    rw [Output.forall_mem_andThen complete, isCheap, Bool.and_eq_true, iha, ihb]
  | triple a b c iha ihb ihc =>
    have complete (free : ∀ visit ∈ (a.visits v.1).items, ¬visit.Costly) : (a.visits v.1).failure = none :=
      (visits_of_isCheap ((iha v.1).mpr free)).complete
    have complete' (free : ∀ visit ∈ (b.visits v.2.1).items, ¬visit.Costly) : (b.visits v.2.1).failure = none :=
      (visits_of_isCheap ((ihb v.2.1).mpr free)).complete
    refine cheap_iff_of_plain nofun ?_
    rw [Output.forall_mem_andThen complete, Output.forall_mem_andThen complete', isCheap, Bool.and_eq_true,
      Bool.and_eq_true, iha, ihb, ihc, and_assoc]
  | _ => exact cheap_iff_of_leaf nofun

/-! ### Exact sums -/

/-- Nothing fails, and the sizes add up to the length of what is written. -/
structure Weighs (sizes : Output Nat) (emission : Emission) : Prop where
  observed : sizes.failure = none
  written : emission.failure = none
  sums : sizes.items.sum = emission.bytes.length

namespace Weighs

variable {sizes sizes' : Output Nat} {emission emission' : Emission}

theorem raw {size : Nat} {data : List Byte} (length : data.length = size) :
    Weighs (.emit size) (Emission.raw data) := by
  refine ⟨rfl, rfl, ?_⟩
  simp [Emission.raw, Output.emit, Emission.bytes, length]

theorem andThen (first : Weighs sizes emission) (second : Weighs sizes' emission') :
    Weighs (sizes.andThen sizes') (emission.andThen emission') := by
  refine ⟨?_, ?_, ?_⟩
  · rw [Output.failure_andThen, first.observed, second.observed]
    rfl
  · rw [Output.failure_andThen, first.written, second.written]
    rfl
  · simp only [Output.andThen, first.observed, first.written, Emission.bytes, List.flatMap_append, List.length_append,
      List.sum_append]
    rw [first.sums, second.sums]
    rfl

theorem labeled (label : String) (weighs : Weighs sizes emission) : Weighs sizes (emission.labeled label) := by
  refine ⟨weighs.observed, Option.map_eq_none_iff.mpr weighs.written, weighs.sums.trans ?_⟩
  simp [Emission.labeled, Emission.bytes, List.flatMap_map]

theorem payload (data : List Byte) : Weighs (.emit (payloadSize data.length)) (Emission.payload data) := by
  refine ⟨rfl, rfl, ?_⟩
  simp [Emission.payload, Emission.lengthPrefix, Emission.varint, Emission.raw, Output.andThen, Output.emit,
    Emission.bytes, payloadSize, Varint.length_encode]

end Weighs

theorem weighs_of_isCheap {t : Ty} {codec : Codec t} {v : t.Value} (cheap : codec.isCheap v = true) :
    Weighs (codec.observe v) (codec.encode v) := by
  induction codec with
  | int sign width => exact .raw (length_bigEndian _ _)
  | float p => exact .raw (length_bigEndian _ _)
  | bool => exact .raw rfl
  | unit => exact ⟨rfl, rfl, rfl⟩
  | never => exact v.elim
  | text => exact .payload _
  | bytes => exact .payload _
  | derived name codec toBase fromBase ih =>
    rw [isCheap] at cheap
    rw [encode_derived, observe]
    cases mapped : toBase v with
    | error refusal =>
      rw [mapped] at cheap
      cases cheap
    | ok base =>
      rw [mapped] at cheap
      exact ih cheap
  | option codec ih =>
    cases v with
    | none => exact .raw rfl
    | some inner =>
      have flagged : Weighs (.emit 1) (Emission.flag true) := .raw rfl
      exact flagged.andThen ((ih cheap).labeled "value")
  | pair a b iha ihb =>
    rw [isCheap, Bool.and_eq_true] at cheap
    exact ((iha cheap.1).labeled "first").andThen ((ihb cheap.2).labeled "second")
  | triple a b c iha ihb ihc =>
    rw [isCheap, Bool.and_eq_true, Bool.and_eq_true] at cheap
    exact ((iha cheap.1.1).labeled "first").andThen
      (((ihb cheap.1.2).labeled "second").andThen ((ihc cheap.2).labeled "third"))
  | _ => cases cheap

/-- Observing a value is a walk whose visits report the sizes, and the value is cheap exactly if the walk comes to no
list, set, array or map, to no codec that finds its size by encoding and to no mapping that refuses. The walk over a
cheap value makes no more visits and reports no more sizes than the tree has codecs; it comes to its end; and the value
can be encoded, in as many bytes as the sizes add up to. -/
theorem cheap_estimate_exact {t : Ty} (codec : Codec t) (v : t.Value) :
    codec.observe v = (codec.visits v).expand (fun visit => visit.codec.reports visit.value) ∧
    (codec.isCheap v = true ↔ ∀ visit ∈ (codec.visits v).items, ¬visit.Costly) ∧
    (codec.isCheap v = true →
      (codec.visits v).items.length ≤ codec.nodes ∧ (codec.observe v).items.length ≤ codec.nodes ∧
        (codec.observe v).failure = none ∧
        ∃ bytes, codec.toBytes v = .ok bytes ∧ (codec.observe v).items.sum = bytes.length) := by
  refine ⟨observe_eq_visits codec v, isCheap_iff codec v, fun cheap => ?_⟩
  have few := (visits_of_isCheap cheap).few
  obtain ⟨observed, written, sums⟩ := weighs_of_isCheap cheap
  exact ⟨few, Nat.le_trans (length_observe_le codec v) few, observed, _, Emission.toBytes_eq_ok_iff.mpr ⟨written, rfl⟩,
    sums⟩

/-- A missing list and a text are cheap together: of five codecs three are visited, and the sizes are those of a flag
and of three bytes. A list that is there is not cheap, nor is a character that its mapping refuses. -/
theorem cheap_estimate_exact_missing :
    let codec : Codec (.pair (.option (.seq .vector .bool)) .text) := .pair (.option (.seq .vector .bool)) .text
    codec.nodes = 5 ∧ (codec.visits (none, "ab")).items.length ≤ 5 ∧ (codec.observe (none, "ab")).items = [1, 3] ∧
      (codec.observe (none, "ab")).failure = none ∧
      (∃ bytes, codec.toBytes (none, "ab") = .ok bytes ∧ [1, 3].sum = bytes.length) ∧
      (¬∀ visit ∈ (codec.visits (some [true], "ab")).items, ¬visit.Costly) ∧
      ¬∀ visit ∈ (char.visits 'λ').items, ¬visit.Costly := by
  intro codec
  have sizes : (codec.observe (none, "ab")).items = [1, 3] := by decide +kernel
  obtain ⟨-, -, bounded⟩ := cheap_estimate_exact codec (none, "ab")
  obtain ⟨few, -, complete, written⟩ := bounded rfl
  rw [sizes] at written
  obtain ⟨-, there, -⟩ := cheap_estimate_exact codec (some [true], "ab")
  obtain ⟨-, refused, -⟩ := cheap_estimate_exact char 'λ'
  refine ⟨rfl, few, sizes, complete, written, fun free => ?_, fun free => ?_⟩
  · exact absurd (there.mpr free) (by decide +kernel)
  · exact absurd (refused.mpr free) (by decide +kernel)

end Codec
end TypedWire
