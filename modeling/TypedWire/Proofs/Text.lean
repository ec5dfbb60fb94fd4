import TypedWire.Codec.Derived
import TypedWire.Utf8
import Mathlib.Tactic.SplitIfs

/-! Whatever the bytes of one character follow and whatever follows them, a scan takes them for that
character, and it takes nothing else for a character. -/

namespace TypedWire

namespace Utf8

/-! ### The bytes of one character -/

private theorem toNat_byte {n : Nat} (small : n < 256) : (BitVec.ofNat 8 n).toNat = n := by
  rw [BitVec.toNat_ofNat, Nat.mod_eq_of_lt small]

theorem toNat_continuation (bits : Nat) : (continuation bits).toNat = 0x80 + bits % 64 :=
  toNat_byte (by omega)

theorem toNat_char (c : Char) : c.toNat < 0xD800 ∨ 0xDFFF < c.toNat ∧ c.toNat < 0x110000 := c.valid

private theorem lead_two {n : Nat} (least : 0x80 ≤ n) (below : n < 0x800) :
    lead (BitVec.ofNat 8 (0xC0 + n / 64)) = .opens ⟨1, 0x80, 0xBF, 1, n / 64⟩ := by
  rw [lead, toNat_byte (by omega)]
  rw [if_neg (by omega), if_neg (by omega), if_pos (by omega), show (0xC0 + n / 64) % 32 = n / 64 by omega]

/-- The first of three bytes, and what it asks of the second one. -/
private theorem lead_three {n : Nat} (least : 0x800 ≤ n) (below : n < 0x10000)
    (scalar : n < 0xD800 ∨ 0xDFFF < n) :
    ∃ low high, lead (BitVec.ofNat 8 (0xE0 + n / 4096)) = .opens ⟨2, low, high, 1, n / 4096⟩ ∧
      low ≤ 0x80 + n / 64 % 64 ∧ 0x80 + n / 64 % 64 ≤ high := by
  rw [lead, toNat_byte (by omega)]
  rw [if_neg (by omega), if_neg (by omega), if_neg (by omega)]
  by_cases first : n / 4096 = 0
  · refine ⟨0xA0, 0xBF, ?_, by omega, by omega⟩
    rw [if_pos (by omega), first]
  · by_cases beforeSurrogates : n / 4096 = 13
    · refine ⟨0x80, 0x9F, ?_, by omega, by omega⟩
      rw [if_neg (by omega), if_pos (by omega), beforeSurrogates]
    · refine ⟨0x80, 0xBF, ?_, by omega, by omega⟩
      rw [if_neg (by omega), if_neg (by omega), if_pos (by omega),
        show (0xE0 + n / 4096) % 16 = n / 4096 by omega]

/-- The first of four bytes, and what it asks of the second one. -/
private theorem lead_four {n : Nat} (least : 0x10000 ≤ n) (below : n < 0x110000) :
    ∃ low high, lead (BitVec.ofNat 8 (0xF0 + n / 262144)) = .opens ⟨3, low, high, 1, n / 262144⟩ ∧
      low ≤ 0x80 + n / 4096 % 64 ∧ 0x80 + n / 4096 % 64 ≤ high := by
  rw [lead, toNat_byte (by omega)]
  rw [if_neg (by omega), if_neg (by omega), if_neg (by omega), if_neg (by omega), if_neg (by omega),
    if_neg (by omega)]
  by_cases first : n / 262144 = 0
  · refine ⟨0x90, 0xBF, ?_, by omega, by omega⟩
    rw [if_pos (by omega), first]
  · by_cases last : n / 262144 = 4
    · refine ⟨0x80, 0x8F, ?_, by omega, by omega⟩
      rw [if_neg (by omega), if_neg (by omega), if_pos (by omega), last]
    · refine ⟨0x80, 0xBF, ?_, by omega, by omega⟩
      rw [if_neg (by omega), if_pos (by omega), show (0xF0 + n / 262144) % 8 = n / 262144 by omega]

/-! ### Scanning -/

variable (start : Nat) (done : List Char) (rest : List Byte)

/-- A continuation byte within the range that the sequence allows, when more are owed. -/
private theorem scan_more {owed low high seen value bits : Nat} (more : 1 < owed)
    (above : low ≤ 0x80 + bits % 64) (below : 0x80 + bits % 64 ≤ high) :
    scan start done (some ⟨owed, low, high, seen, value⟩) (continuation bits :: rest) =
      scan start done (some ⟨owed - 1, 0x80, 0xBF, seen + 1, value * 64 + bits % 64⟩) rest := by
  rw [scan]
  simp only [toNat_continuation]
  rw [if_pos ⟨above, below⟩, if_neg (by omega), show (0x80 + bits % 64) % 64 = bits % 64 by omega]

private theorem scan_last {low high seen value bits : Nat} (above : low ≤ 0x80 + bits % 64)
    (below : 0x80 + bits % 64 ≤ high) :
    scan start done (some ⟨1, low, high, seen, value⟩) (continuation bits :: rest) =
      scan (start + seen + 1) (Char.ofNat (value * 64 + bits % 64) :: done) none rest := by
  rw [scan]
  simp only [toNat_continuation]
  rw [if_pos ⟨above, below⟩, if_pos (by omega), show (0x80 + bits % 64) % 64 = bits % 64 by omega]

/-- The bytes of a character are taken for it. -/
theorem scan_encodeChar (c : Char) :
    scan start done none (encodeChar c ++ rest) =
      scan (start + (encodeChar c).length) (c :: done) none rest := by
  have scalar := toNat_char c
  have back : Char.ofNat c.toNat = c := Char.ofNat_toNat c
  unfold encodeChar
  generalize c.toNat = n at scalar back
  simp only
  by_cases one : n < 0x80
  · have single : lead (BitVec.ofNat 8 n) = .single c := by
      rw [lead, toNat_byte (by omega)]
      rw [if_pos one, back]
    simp [one, scan, single]
  · by_cases two : n < 0x800
    · simp only [one, two, if_true, if_false, List.cons_append, List.nil_append, List.length_cons, List.length_nil]
      rw [scan, lead_two (by omega) (by omega)]
      simp only
      rw [scan_last _ _ _ (by omega) (by omega), show n / 64 * 64 + n % 64 = n by omega, back]
    · by_cases three : n < 0x10000
      · obtain ⟨low, high, opens, above, below⟩ := lead_three (n := n) (by omega) (by omega) (by omega)
        simp only [one, two, three, if_true, if_false, List.cons_append, List.nil_append, List.length_cons,
          List.length_nil]
        rw [scan, opens]
        simp only
        rw [scan_more _ _ _ (by omega) above below, scan_last _ _ _ (by omega) (by omega),
          show (n / 4096 * 64 + n / 64 % 64) * 64 + n % 64 = n by omega, back]
      · obtain ⟨low, high, opens, above, below⟩ := lead_four (n := n) (by omega) (by omega)
        simp only [one, two, three, if_false, List.cons_append, List.nil_append, List.length_cons, List.length_nil]
        rw [scan, opens]
        simp only
        rw [scan_more _ _ _ (by omega) above below, scan_more _ _ _ (by omega) (by omega) (by omega),
          scan_last _ _ _ (by omega) (by omega),
          show ((n / 262144 * 64 + n / 4096 % 64) * 64 + n / 64 % 64) * 64 + n % 64 = n by omega, back]

theorem scan_flatMap (text : List Char) :
    scan start done none (text.flatMap encodeChar) = .ok (done.reverse ++ text) := by
  induction text generalizing start done with
  | nil => simp [scan]
  | cons c text ih =>
    rw [List.flatMap_cons, scan_encodeChar, ih]
    simp

/-! ### Reading back -/

/-- Text is read back from its bytes. -/
theorem decode_encode (text : String) : decode (encode text) = .ok text := by
  rw [decode, encode, scan_flatMap]
  simp [Except.map]

theorem encode_eq_iff {a b : String} : encode a = encode b ↔ a = b := by
  constructor
  · intro same
    have read := decode_encode a
    rw [same, decode_encode, Except.ok.injEq] at read
    exact read.symm
  · rintro rfl
    rfl

/-! ### Only what encoding writes is accepted -/

/-- The first byte of a sequence says how long it is and how its value begins, and leaves no room for a value that
a shorter sequence has or that is no character. -/
private theorem lead_opens {byte : Byte} {p : Pending} (opens : lead byte = .opens p) :
    p.seen = 1 ∧ 0x80 ≤ p.low ∧ p.high ≤ 0xBF ∧
      (p.owed = 1 ∧ byte.toNat = 0xC0 + p.value ∧ 2 ≤ p.value ∧ p.value < 32 ∨
        p.owed = 2 ∧ byte.toNat = 0xE0 + p.value ∧ p.value < 16 ∧ (p.value = 0 → 0xA0 ≤ p.low) ∧
          (p.value = 13 → p.high ≤ 0x9F) ∨
        p.owed = 3 ∧ byte.toNat = 0xF0 + p.value ∧ p.value < 5 ∧ (p.value = 0 → 0x90 ≤ p.low) ∧
          (p.value = 4 → p.high ≤ 0x8F)) := by
  unfold lead at opens
  simp only at opens
  split_ifs at opens <;> cases opens <;> simp only [true_and] <;> omega

/-- Inside a sequence there is a continuation byte, within the range that the sequence allows, or a scan stops where
the sequence began. -/
private theorem scan_pending (start : Nat) (done : List Char) (p : Pending) (bytes : List Byte) :
    (∃ length, scan start done (some p) bytes = .error ⟨start, length⟩) ∨
      ∃ byte rest, bytes = byte :: rest ∧ p.low ≤ byte.toNat ∧ byte.toNat ≤ p.high ∧
        scan start done (some p) bytes = if p.owed ≤ 1 then
            scan (start + p.seen + 1) (Char.ofNat (p.value * 64 + byte.toNat % 64) :: done) none rest
          else scan start done (some ⟨p.owed - 1, 0x80, 0xBF, p.seen + 1, p.value * 64 + byte.toNat % 64⟩) rest := by
  cases bytes with
  | nil => exact .inl ⟨none, rfl⟩
  | cons byte rest =>
    rw [scan]
    by_cases within : p.low ≤ byte.toNat ∧ byte.toNat ≤ p.high
    · rw [if_pos within]
      exact .inr ⟨byte, rest, rfl, within.1, within.2, rfl⟩
    · rw [if_neg within]
      exact .inl ⟨_, rfl⟩

private theorem eq_ofNat {byte : Byte} {n : Nat} (same : byte.toNat = n) : byte = BitVec.ofNat 8 n := by
  rw [← same, BitVec.ofNat_toNat, BitVec.setWidth_eq]

theorem toNat_ofNat {n : Nat} (scalar : n < 0xD800 ∨ 0xDFFF < n ∧ n < 0x110000) : (Char.ofNat n).toNat = n := by
  have valid : n.isValidChar := scalar
  rw [Char.ofNat, dif_pos valid]
  rfl

private theorem encodeChar_ofNat_one {byte : Byte} (ascii : byte.toNat < 0x80) :
    encodeChar (Char.ofNat byte.toNat) = [byte] := by
  rw [encodeChar, toNat_ofNat (by omega)]
  rw [if_pos ascii, BitVec.ofNat_toNat, BitVec.setWidth_eq]

private theorem encodeChar_ofNat_two {first second : Byte} {value : Nat} (lead : first.toNat = 0xC0 + value)
    (least : 2 ≤ value) (below : value < 32) (low : 0x80 ≤ second.toNat) (high : second.toNat ≤ 0xBF) :
    encodeChar (Char.ofNat (value * 64 + second.toNat % 64)) = [first, second] := by
  rw [encodeChar, toNat_ofNat (by omega), continuation]
  rw [if_neg (by omega), if_pos (by omega)]
  rw [← @eq_ofNat first _ (by omega), ← @eq_ofNat second _ (by omega)]

private theorem encodeChar_ofNat_three {first second third : Byte} {value : Nat} (lead : first.toNat = 0xE0 + value)
    (below : value < 16) (low : 0x80 ≤ second.toNat) (high : second.toNat ≤ 0xBF)
    (noShorter : value = 0 → 0xA0 ≤ second.toNat) (noSurrogate : value = 13 → second.toNat ≤ 0x9F)
    (low' : 0x80 ≤ third.toNat) (high' : third.toNat ≤ 0xBF) :
    encodeChar (Char.ofNat ((value * 64 + second.toNat % 64) * 64 + third.toNat % 64)) = [first, second, third] := by
  rw [encodeChar, toNat_ofNat (by omega), continuation, continuation]
  rw [if_neg (by omega), if_neg (by omega), if_pos (by omega)]
  rw [← @eq_ofNat first _ (by omega), ← @eq_ofNat second _ (by omega), ← @eq_ofNat third _ (by omega)]

private theorem encodeChar_ofNat_four {first second third fourth : Byte} {value : Nat}
    (lead : first.toNat = 0xF0 + value) (below : value < 5) (low : 0x80 ≤ second.toNat)
    (high : second.toNat ≤ 0xBF) (noShorter : value = 0 → 0x90 ≤ second.toNat)
    (noGreater : value = 4 → second.toNat ≤ 0x8F) (low' : 0x80 ≤ third.toNat) (high' : third.toNat ≤ 0xBF)
    (low'' : 0x80 ≤ fourth.toNat) (high'' : fourth.toNat ≤ 0xBF) :
    encodeChar (Char.ofNat (((value * 64 + second.toNat % 64) * 64 + third.toNat % 64) * 64 + fourth.toNat % 64)) =
      [first, second, third, fourth] := by
  rw [encodeChar, toNat_ofNat (by omega), continuation, continuation, continuation]
  rw [if_neg (by omega), if_neg (by omega), if_neg (by omega)]
  rw [← @eq_ofNat first _ (by omega), ← @eq_ofNat second _ (by omega), ← @eq_ofNat third _ (by omega),
    ← @eq_ofNat fourth _ (by omega)]

private theorem scan_cons (start : Nat) (done : List Char) (byte : Byte) (bytes : List Byte) :
    (∃ length, scan start done none (byte :: bytes) = .error ⟨start, length⟩) ∨
      ∃ c rest, byte :: bytes = encodeChar c ++ rest := by
  rw [scan]
  cases leads : lead byte with
  | invalid => exact .inl ⟨some 1, rfl⟩
  | single c =>
    have ascii : byte.toNat < 0x80 ∧ c = Char.ofNat byte.toNat := by
      unfold lead at leads
      simp only at leads
      split_ifs at leads with small
      cases leads
      exact ⟨small, rfl⟩
    refine .inr ⟨c, bytes, ?_⟩
    rw [ascii.2, encodeChar_ofNat_one ascii.1, List.singleton_append]
  | opens p =>
    simp only
    obtain ⟨-, low, high, ⟨owed, first, least, below⟩ | ⟨owed, first, below, noShorter, noSurrogate⟩ |
      ⟨owed, first, below, noShorter, noGreater⟩⟩ := lead_opens leads
    · rcases scan_pending start done p bytes with stops | ⟨second, rest, rfl, above, under, -⟩
      · exact .inl stops
      · refine .inr ⟨Char.ofNat (p.value * 64 + second.toNat % 64), rest, ?_⟩
        rw [encodeChar_ofNat_two first least below (by omega) (by omega)]
        rfl
    · rcases scan_pending start done p bytes with stops | ⟨second, rest, rfl, above, under, goes⟩
      · exact .inl stops
      rw [goes, if_neg (by omega)]
      rcases scan_pending start done _ rest with stops | ⟨third, rest, rfl, above', under', -⟩
      · exact .inl stops
      · simp only at above' under'
        refine .inr ⟨Char.ofNat ((p.value * 64 + second.toNat % 64) * 64 + third.toNat % 64), rest, ?_⟩
        rw [encodeChar_ofNat_three first below (by omega) (by omega) (by omega) (by omega) above' under']
        rfl
    · rcases scan_pending start done p bytes with stops | ⟨second, rest, rfl, above, under, goes⟩
      · exact .inl stops
      rw [goes, if_neg (by omega)]
      rcases scan_pending start done _ rest with stops | ⟨third, rest, rfl, above', under', goes'⟩
      · exact .inl stops
      simp only at above' under' goes'
      rw [goes', if_neg (by omega)]
      rcases scan_pending start done _ rest with stops | ⟨fourth, rest, rfl, above'', under'', -⟩
      · exact .inl stops
      · simp only at above'' under''
        refine .inr ⟨Char.ofNat (((p.value * 64 + second.toNat % 64) * 64 + third.toNat % 64) * 64 +
          fourth.toNat % 64), rest, ?_⟩
        rw [encodeChar_ofNat_four first below (by omega) (by omega) (by omega) (by omega) above' under' above'' under'']
        rfl

theorem encodeChar_ne_nil (c : Char) : encodeChar c ≠ [] := by
  unfold encodeChar
  simp only
  split_ifs <;> simp

/-- A scan reads characters from their bytes, up to the end or to where it stops. -/
theorem scan_eq (start : Nat) (done : List Char) (bytes : List Byte) :
    ∃ text rest, bytes = text.flatMap encodeChar ++ rest ∧
      (rest = [] ∧ scan start done none bytes = .ok (done.reverse ++ text) ∨
        ∃ length, scan start done none bytes = .error ⟨start + (text.flatMap encodeChar).length, length⟩) := by
  induction hsize : bytes.length using Nat.strongRecOn generalizing bytes start done with
  | _ size ih =>
    cases bytes with
    | nil => exact ⟨[], [], rfl, .inl ⟨rfl, by simp [scan]⟩⟩
    | cons byte bytes =>
      rcases scan_cons start done byte bytes with ⟨length, stops⟩ | ⟨c, rest, split⟩
      · exact ⟨[], byte :: bytes, rfl, .inr ⟨length, stops⟩⟩
      · have shorter : rest.length < size := by
          have some := List.length_pos_iff.mpr (encodeChar_ne_nil c)
          rw [← hsize, split, List.length_append]
          omega
        obtain ⟨text, left, rfl, outcome⟩ := ih _ shorter (start + (encodeChar c).length) (c :: done) rest rfl
        refine ⟨c :: text, left, by rw [split, List.flatMap_cons, List.append_assoc], ?_⟩
        rw [split, scan_encodeChar]
        rcases outcome with ⟨rfl, read⟩ | ⟨length, stops⟩
        · exact .inl ⟨rfl, by simpa using read⟩
        · exact .inr ⟨length, by rw [stops, List.flatMap_cons, List.length_append, Nat.add_assoc]⟩

/-- Bytes that are read as a text are the bytes of that text. -/
theorem encode_of_decode {bytes : List Byte} {text : String} (read : decode bytes = .ok text) :
    encode text = bytes := by
  obtain ⟨chars, rest, split, ⟨rfl, scanned⟩ | ⟨length, stops⟩⟩ := scan_eq 0 [] bytes
  · rw [decode, scanned] at read
    cases read
    simp [encode, split]
  · rw [decode, stops] at read
    cases read

/-- Bytes that are not read as a text begin with one that ends where the fault is. -/
theorem encode_of_fault {bytes : List Byte} {fault : Utf8Fault} (refused : decode bytes = .error fault) :
    (∀ text, encode text ≠ bytes) ∧ fault.validUpTo ≤ bytes.length ∧
      ∃ text, encode text = bytes.take fault.validUpTo := by
  refine ⟨?_, ?_⟩
  · rintro text rfl
    cases (decode_encode text).symm.trans refused
  · obtain ⟨chars, rest, split, ⟨-, scanned⟩ | ⟨length, stops⟩⟩ := scan_eq 0 [] bytes
    · rw [decode, scanned] at refused
      cases refused
    · rw [decode, stops] at refused
      cases refused
      rw [split, Nat.zero_add, List.take_left, List.length_append]
      exact ⟨Nat.le_add_right _ _, String.ofList chars, by simp [encode]⟩

end Utf8

namespace Codec

theorem byteToChar_charToByte {c : Char} {byte : Byte} (coded : charToByte c = .ok byte) :
    byteToChar byte = c := by
  unfold charToByte at coded
  by_cases small : c.toNat < 256
  · rw [if_pos small] at coded
    cases coded
    rw [byteToChar, BitVec.toNat_ofNat, Nat.mod_eq_of_lt small, Char.ofNat_toNat]
  · rw [if_neg small] at coded
    cases coded

/-- Every code of one byte is the code of a character. -/
theorem charToByte_byteToChar (byte : Byte) : charToByte (byteToChar byte) = .ok byte := by
  have small := byte.isLt
  have code : (byteToChar byte).toNat = byte.toNat := Utf8.toNat_ofNat (by omega)
  rw [charToByte, code, if_pos small, BitVec.ofNat_toNat, BitVec.setWidth_eq]

theorem charToByte_inj {a b : Char} {byte : Byte} (first : charToByte a = .ok byte)
    (second : charToByte b = .ok byte) : a = b := by
  rw [← byteToChar_charToByte first, byteToChar_charToByte second]

end Codec
end TypedWire
