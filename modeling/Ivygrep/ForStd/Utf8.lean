import Mathlib

/-!
# Decoding UTF-8

One character at a time from a list of bytes. A sequence that no character starts with is cut
after its longest beginning that some character has, and a sequence that ends too early is told
apart from it, so that a reader may wait for more bytes.
-/

namespace ForStd.Utf8

/-- What stands at the beginning of some bytes. -/
inductive Step where
  | char (c : Char) (width : Nat)
  | invalid (width : Nat)
  | incomplete
  deriving DecidableEq

/-- What the first byte of a character announces: how many bytes follow it, the range of the next
    one, and the bits it gives. -/
structure Lead where
  more : Nat
  low : Nat
  high : Nat
  value : Nat

def lead (first : Nat) : Option Lead :=
  if first < 0x80 then some ⟨0, 0x80, 0xBF, first⟩
  else if 0xC2 ≤ first ∧ first ≤ 0xDF then some ⟨1, 0x80, 0xBF, first % 32⟩
  else if first = 0xE0 then some ⟨2, 0xA0, 0xBF, 0⟩
  else if 0xE1 ≤ first ∧ first ≤ 0xEF then
    some ⟨2, 0x80, if first = 0xED then 0x9F else 0xBF, first % 16⟩
  else if first = 0xF0 then some ⟨3, 0x90, 0xBF, 0⟩
  else if 0xF1 ≤ first ∧ first ≤ 0xF4 then
    some ⟨3, 0x80, if first = 0xF4 then 0x8F else 0xBF, first % 8⟩
  else none

/-- The bytes after the first one. `width` counts the bytes so far. -/
def follow : Nat → Nat → Nat → Nat → Nat → List UInt8 → Step
  | 0, _, _, width, value, _ => .char (Char.ofNat value) width
  | _ + 1, _, _, _, _, [] => .incomplete
  | more + 1, low, high, width, value, byte :: rest =>
    if low ≤ byte.toNat ∧ byte.toNat ≤ high then
      follow more 0x80 0xBF (width + 1) (value * 64 + byte.toNat % 64) rest
    else .invalid width

/-- The rest of a character, after its first byte. -/
def decodeRest : Option Lead → List UInt8 → Step
  | none, _ => .invalid 1
  | some lead, rest => follow lead.more lead.low lead.high 1 lead.value rest

def decode : List UInt8 → Step
  | [] => .incomplete
  | first :: rest => decodeRest (lead first.toNat) rest

theorem decodeRest_some (lead : Lead) (rest : List UInt8) :
    decodeRest (some lead) rest = follow lead.more lead.low lead.high 1 lead.value rest := rfl

theorem decode_cons (first : UInt8) (rest : List UInt8) :
    decode (first :: rest) = decodeRest (lead first.toNat) rest := rfl

/-! ## More bytes -/

theorem follow_append {more low high width value : Nat} {bytes : List UInt8}
    (h : follow more low high width value bytes ≠ .incomplete) (after : List UInt8) :
    follow more low high width value (bytes ++ after) = follow more low high width value bytes := by
  induction more generalizing low high width value bytes with
  | zero => rfl
  | succ more ih =>
    cases bytes with
    | nil => exact absurd rfl h
    | cons byte bytes =>
      rw [List.cons_append]
      unfold follow at h ⊢
      split at h
      · next hrange =>
        rw [if_pos hrange, if_pos hrange]
        exact ih h
      · next hrange => rw [if_neg hrange, if_neg hrange]

/-- What was decoded does not depend on the bytes that follow. -/
theorem decode_append {bytes : List UInt8} (h : decode bytes ≠ .incomplete) (after : List UInt8) :
    decode (bytes ++ after) = decode bytes := by
  cases bytes with
  | nil => exact absurd rfl h
  | cons first bytes =>
    rw [List.cons_append, decode_cons, decode_cons]
    rw [decode_cons] at h
    cases hlead : lead first.toNat with
    | none => rfl
    | some lead =>
      rw [hlead] at h
      exact follow_append h after

/-- The number of bytes that a step takes. -/
def Step.width : Step → Nat
  | .char _ width => width
  | .invalid width => width
  | .incomplete => 0

theorem follow_width {more low high width value : Nat} {bytes : List UInt8}
    (h : follow more low high width value bytes ≠ .incomplete) :
    width ≤ (follow more low high width value bytes).width ∧
      (follow more low high width value bytes).width ≤ width + bytes.length := by
  induction more generalizing low high width value bytes with
  | zero => exact ⟨Nat.le_refl _, Nat.le_add_right _ _⟩
  | succ more ih =>
    cases bytes with
    | nil => exact absurd rfl h
    | cons byte bytes =>
      unfold follow at h ⊢
      rw [List.length_cons]
      split at h
      · next hrange =>
        rw [if_pos hrange]
        have hwidth := ih h
        omega
      · next hrange =>
        rw [if_neg hrange]
        exact ⟨Nat.le_refl _, Nat.le_add_right _ _⟩

/-- A step takes at least one byte, and no more than there are. -/
theorem decode_width {bytes : List UInt8} (h : decode bytes ≠ .incomplete) :
    1 ≤ (decode bytes).width ∧ (decode bytes).width ≤ bytes.length := by
  cases bytes with
  | nil => exact absurd rfl h
  | cons first bytes =>
    rw [decode_cons] at h ⊢
    rw [List.length_cons]
    cases hlead : lead first.toNat with
    | none => exact ⟨Nat.le_refl _, Nat.succ_le_succ (Nat.zero_le _)⟩
    | some lead =>
      rw [hlead] at h
      have hwidth := follow_width h
      rw [Nat.add_comm]
      exact hwidth

/-- An unfinished character has at most three bytes. -/
theorem follow_incomplete {more low high width value : Nat} {bytes : List UInt8}
    (h : follow more low high width value bytes = .incomplete) : bytes.length < more := by
  induction more generalizing low high width value bytes with
  | zero => cases h
  | succ more ih =>
    cases bytes with
    | nil => exact Nat.succ_pos _
    | cons byte bytes =>
      unfold follow at h
      split at h
      · exact Nat.succ_lt_succ (ih h)
      · cases h

theorem lead_more_le {first : Nat} {result : Lead} (h : lead first = some result) :
    result.more ≤ 3 := by
  unfold lead at h
  split_ifs at h
  all_goals
    obtain rfl := Option.some.inj h
    dsimp only
    omega

theorem decode_incomplete {bytes : List UInt8} (h : decode bytes = .incomplete) :
    bytes.length ≤ 3 := by
  cases bytes with
  | nil => exact Nat.zero_le _
  | cons first bytes =>
    rw [decode_cons] at h
    cases hlead : lead first.toNat with
    | none =>
      rw [hlead] at h
      cases h
    | some lead =>
      rw [hlead] at h
      have hshort := follow_incomplete h
      have hmore := lead_more_le hlead
      rw [List.length_cons]
      omega

/-! ## Characters -/

theorem toNat_ofNat_byte {n : Nat} (h : n < 256) : (UInt8.ofNat n).toNat = n := by
  rw [UInt8.toNat_ofNat', Nat.mod_eq_of_lt h]

/-- A code point is not a surrogate. -/
theorem char_range (c : Char) : c.toNat < 0xD800 ∨ 0xDFFF < c.toNat ∧ c.toNat < 0x110000 :=
  c.valid

theorem lead_one {n : Nat} (h : n < 0x80) : lead n = some ⟨0, 0x80, 0xBF, n⟩ := if_pos h

theorem lead_two {n : Nat} (h : 0xC2 ≤ n ∧ n ≤ 0xDF) :
    lead n = some ⟨1, 0x80, 0xBF, n % 32⟩ := by
  unfold lead
  rw [if_neg (by omega), if_pos h]

theorem lead_three {n : Nat} (h : 0xE0 ≤ n ∧ n ≤ 0xEF) :
    lead n = some ⟨2, if n = 0xE0 then 0xA0 else 0x80, if n = 0xED then 0x9F else 0xBF,
      n % 16⟩ := by
  unfold lead
  rw [if_neg (by omega), if_neg (by omega)]
  split
  · next hfirst =>
    subst hfirst
    rfl
  · rw [if_pos (by omega)]

theorem lead_four {n : Nat} (h : 0xF0 ≤ n ∧ n ≤ 0xF4) :
    lead n = some ⟨3, if n = 0xF0 then 0x90 else 0x80, if n = 0xF4 then 0x8F else 0xBF,
      n % 8⟩ := by
  unfold lead
  rw [if_neg (by omega), if_neg (by omega), if_neg (by omega), if_neg (by omega)]
  split
  · next hfirst =>
    subst hfirst
    rfl
  · rw [if_pos (by omega)]

theorem follow_cons {more low high width value n : Nat} {rest : List UInt8} (hbyte : n < 256)
    (h : low ≤ n ∧ n ≤ high) : follow (more + 1) low high width value (UInt8.ofNat n :: rest) =
      follow more 0x80 0xBF (width + 1) (value * 64 + n % 64) rest := by
  rw [follow, toNat_ofNat_byte hbyte, if_pos h]

/-- The bytes of a character decode to it, whatever follows. -/
theorem decode_utf8EncodeChar (c : Char) (rest : List UInt8) :
    decode (String.utf8EncodeChar c ++ rest) = .char c (String.utf8EncodeChar c).length := by
  have hrange := char_range c
  have hvalue : c.val.toNat = c.toNat := rfl
  have hchar : ∀ {n width : Nat}, n = c.toNat → Step.char (Char.ofNat n) width = .char c width := by
    rintro n width rfl
    rw [Char.ofNat_toNat]
  unfold String.utf8EncodeChar
  dsimp only
  rw [hvalue]
  split
  · next hone =>
    rw [List.singleton_append, decode_cons, toNat_ofNat_byte (by omega), lead_one (by omega)]
    exact hchar rfl
  next hone =>
  split
  · next htwo =>
    rw [List.cons_append, decode_cons, toNat_ofNat_byte (by omega), lead_two (by omega),
      decodeRest_some, List.singleton_append, follow_cons (by omega) (by dsimp only; omega)]
    exact hchar (by dsimp only; omega)
  next htwo =>
  split
  · next hthree =>
    rw [List.cons_append, decode_cons, toNat_ofNat_byte (by omega), lead_three (by omega),
      decodeRest_some, List.cons_append, follow_cons (by omega) (by dsimp only; split <;> split <;> omega),
      List.singleton_append, follow_cons (by omega) (by omega)]
    exact hchar (by dsimp only; omega)
  · next hthree =>
    rw [List.cons_append, decode_cons, toNat_ofNat_byte (by omega), lead_four (by omega),
      decodeRest_some, List.cons_append, follow_cons (by omega) (by dsimp only; split <;> split <;> omega),
      List.cons_append, follow_cons (by omega) (by omega), List.singleton_append,
      follow_cons (by omega) (by omega)]
    exact hchar (by dsimp only; omega)

/-- One more byte of a character. -/
theorem follow_eq_char {more low high width value w : Nat} {bytes : List UInt8} {c : Char}
    (h : follow (more + 1) low high width value bytes = .char c w) : ∃ n rest, n < 256 ∧
      bytes = UInt8.ofNat n :: rest ∧ low ≤ n ∧ n ≤ high ∧
      follow more 0x80 0xBF (width + 1) (value * 64 + n % 64) rest = .char c w := by
  cases bytes with
  | nil => cases h
  | cons byte rest =>
    rw [follow] at h
    split at h
    · next hrange =>
      exact ⟨byte.toNat, rest, byte.toNat_lt, by rw [UInt8.ofNat_toNat], hrange.1, hrange.2, h⟩
    · cases h

private theorem cons_congr {m n : Nat} {left right : List UInt8} (hbyte : m = n)
    (hrest : left = right) : UInt8.ofNat m :: left = UInt8.ofNat n :: right := by
  rw [hbyte, hrest]

/-- What decodes to a character is the bytes of the character. -/
theorem utf8EncodeChar_of_decode {bytes : List UInt8} {c : Char} {width : Nat}
    (h : decode bytes = .char c width) : ∃ rest, bytes = String.utf8EncodeChar c ++ rest ∧
      width = (String.utf8EncodeChar c).length := by
  have hvalid : ∀ n, n < 0xD800 ∨ 0xDFFF < n ∧ n < 0x110000 → (Char.ofNat n).val.toNat = n := by
    intro n hn
    rw [Char.ofNat, dif_pos (show n.isValidChar from hn)]
    rfl
  cases bytes with
  | nil => cases h
  | cons first bytes =>
    obtain ⟨n, hn, rfl⟩ : ∃ n, n < 256 ∧ first = UInt8.ofNat n :=
      ⟨first.toNat, first.toNat_lt, by rw [UInt8.ofNat_toNat]⟩
    rw [decode_cons, toNat_ofNat_byte hn] at h
    by_cases hone : n < 0x80
    · rw [lead_one hone] at h
      cases h
      refine ⟨bytes, ?_⟩
      rw [String.utf8EncodeChar, hvalid _ (by dsimp only; omega)]
      dsimp only
      rw [if_pos (by omega)]
      exact ⟨rfl, rfl⟩
    by_cases htwo : 0xC2 ≤ n ∧ n ≤ 0xDF
    · rw [lead_two htwo, decodeRest_some] at h
      obtain ⟨second, rest, -, rfl, hlow, hhigh, h⟩ := follow_eq_char h
      dsimp only at hlow hhigh
      cases h
      refine ⟨rest, ?_⟩
      rw [String.utf8EncodeChar, hvalid _ (by dsimp only; omega)]
      dsimp only
      rw [if_neg (by omega), if_pos (by omega)]
      exact ⟨cons_congr (by omega) (cons_congr (by omega) rfl), rfl⟩
    by_cases hthree : 0xE0 ≤ n ∧ n ≤ 0xEF
    · rw [lead_three hthree, decodeRest_some] at h
      obtain ⟨second, bytes, -, rfl, hlow, hhigh, h⟩ := follow_eq_char h
      obtain ⟨third, rest, -, rfl, hlow', hhigh', h⟩ := follow_eq_char h
      dsimp only at hlow hhigh
      cases h
      have hbelow : second ≤ 0xBF := by split at hhigh <;> omega
      have habove : 0x80 ≤ second := by split at hlow <;> omega
      have hscalar : n % 16 * 64 * 64 + second % 64 * 64 + third % 64 < 0xD800 ∨
          0xDFFF < n % 16 * 64 * 64 + second % 64 * 64 + third % 64 := by
        split at hlow <;> split at hhigh <;> omega
      have hlarge : 0x800 ≤ n % 16 * 64 * 64 + second % 64 * 64 + third % 64 := by
        split at hlow <;> omega
      refine ⟨rest, ?_⟩
      rw [String.utf8EncodeChar, hvalid _ (by dsimp only; omega)]
      dsimp only
      rw [if_neg (by omega), if_neg (by omega), if_pos (by omega)]
      exact ⟨cons_congr (by omega) (cons_congr (by omega) (cons_congr (by omega) rfl)), rfl⟩
    by_cases hfour : 0xF0 ≤ n ∧ n ≤ 0xF4
    · rw [lead_four hfour, decodeRest_some] at h
      obtain ⟨second, bytes, -, rfl, hlow, hhigh, h⟩ := follow_eq_char h
      obtain ⟨third, bytes, -, rfl, hlow', hhigh', h⟩ := follow_eq_char h
      obtain ⟨fourth, rest, -, rfl, hlow'', hhigh'', h⟩ := follow_eq_char h
      dsimp only at hlow hhigh
      cases h
      have hbelow : second ≤ 0xBF := by split at hhigh <;> omega
      have habove : 0x80 ≤ second := by split at hlow <;> omega
      have hlarge : 0x10000 ≤
          n % 8 * 64 * 64 * 64 + second % 64 * 64 * 64 + third % 64 * 64 + fourth % 64 := by
        split at hlow <;> omega
      have hscalar :
          n % 8 * 64 * 64 * 64 + second % 64 * 64 * 64 + third % 64 * 64 + fourth % 64 <
            0x110000 := by
        split at hhigh <;> omega
      refine ⟨rest, ?_⟩
      rw [String.utf8EncodeChar, hvalid _ (by dsimp only; omega)]
      dsimp only
      rw [if_neg (by omega), if_neg (by omega), if_neg (by omega)]
      exact ⟨cons_congr (by omega) (cons_congr (by omega) (cons_congr (by omega)
        (cons_congr (by omega) rfl))), rfl⟩
    · have hnone : lead n = none := by
        unfold lead
        rw [if_neg hone, if_neg htwo, if_neg (by omega), if_neg (by omega), if_neg (by omega),
          if_neg (by omega)]
      rw [hnone] at h
      cases h

/-! ## Texts -/

def encode (text : List Char) : List UInt8 := text.flatMap String.utf8EncodeChar

theorem encode_cons (c : Char) (text : List Char) :
    encode (c :: text) = String.utf8EncodeChar c ++ encode text := List.flatMap_cons

theorem encode_append (left right : List Char) :
    encode (left ++ right) = encode left ++ encode right := List.flatMap_append

/-- The characters up to the first byte that is not part of one, and the bytes from there on. -/
def validFuel : Nat → List UInt8 → List Char × List UInt8
  | 0, bytes => ([], bytes)
  | fuel + 1, bytes =>
    match decode bytes with
    | .char c width =>
      (c :: (validFuel fuel (bytes.drop width)).1, (validFuel fuel (bytes.drop width)).2)
    | _ => ([], bytes)

@[inherit_doc validFuel]
def valid (bytes : List UInt8) : List Char × List UInt8 := validFuel bytes.length bytes

/-- The characters with U+FFFD in place of each sequence that is not one. -/
def lossyFuel : Nat → List UInt8 → List Char
  | 0, _ => []
  | _ + 1, [] => []
  | fuel + 1, first :: rest =>
    match decode (first :: rest) with
    | .char c width => c :: lossyFuel fuel ((first :: rest).drop width)
    | .invalid width => '\uFFFD' :: lossyFuel fuel ((first :: rest).drop width)
    | .incomplete => ['\uFFFD']

@[inherit_doc lossyFuel]
def lossy (bytes : List UInt8) : List Char := lossyFuel bytes.length bytes

theorem decode_eq_char_width {bytes : List UInt8} {c : Char} {width : Nat}
    (h : decode bytes = .char c width) : 1 ≤ width ∧ width ≤ bytes.length := by
  have hne : decode bytes ≠ .incomplete := by
    rw [h]
    simp
  have hwidth := decode_width hne
  rwa [h] at hwidth

theorem decode_eq_invalid_width {bytes : List UInt8} {width : Nat}
    (h : decode bytes = .invalid width) : 1 ≤ width ∧ width ≤ bytes.length := by
  have hne : decode bytes ≠ .incomplete := by
    rw [h]
    simp
  have hwidth := decode_width hne
  rwa [h] at hwidth

theorem validFuel_eq {fuel : Nat} {bytes : List UInt8} (h : bytes.length ≤ fuel) :
    validFuel fuel bytes = validFuel (fuel + 1) bytes := by
  induction fuel generalizing bytes with
  | zero =>
    obtain rfl := List.length_eq_zero_iff.mp (Nat.le_zero.mp h)
    rfl
  | succ fuel ih =>
    rw [validFuel, validFuel]
    split
    · next c width hchar =>
      have hwidth := decode_eq_char_width hchar
      rw [ih (by rw [List.length_drop]; omega)]
    · rfl

theorem lossyFuel_eq {fuel : Nat} {bytes : List UInt8} (h : bytes.length ≤ fuel) :
    lossyFuel fuel bytes = lossyFuel (fuel + 1) bytes := by
  induction fuel generalizing bytes with
  | zero =>
    obtain rfl := List.length_eq_zero_iff.mp (Nat.le_zero.mp h)
    rfl
  | succ fuel ih =>
    cases bytes with
    | nil => rfl
    | cons first rest =>
      rw [lossyFuel, lossyFuel]
      split
      · next c width hchar =>
        have hwidth := decode_eq_char_width hchar
        rw [ih (by rw [List.length_drop]; omega)]
      · next width hinvalid =>
        have hwidth := decode_eq_invalid_width hinvalid
        rw [ih (by rw [List.length_drop]; omega)]
      · rfl

theorem validFuel_of_le {fuel : Nat} {bytes : List UInt8} (h : bytes.length ≤ fuel) :
    validFuel fuel bytes = valid bytes := by
  induction fuel with
  | zero => rw [valid, Nat.le_zero.mp h]
  | succ fuel ih =>
    rcases Nat.lt_or_eq_of_le h with hlt | heq
    · rw [← validFuel_eq (Nat.le_of_lt_succ hlt), ih (Nat.le_of_lt_succ hlt)]
    · rw [valid, heq]

theorem lossyFuel_of_le {fuel : Nat} {bytes : List UInt8} (h : bytes.length ≤ fuel) :
    lossyFuel fuel bytes = lossy bytes := by
  induction fuel with
  | zero => rw [lossy, Nat.le_zero.mp h]
  | succ fuel ih =>
    rcases Nat.lt_or_eq_of_le h with hlt | heq
    · rw [← lossyFuel_eq (Nat.le_of_lt_succ hlt), ih (Nat.le_of_lt_succ hlt)]
    · rw [lossy, heq]

theorem valid_of_char {bytes : List UInt8} {c : Char} {width : Nat}
    (h : decode bytes = .char c width) :
    valid bytes = (c :: (valid (bytes.drop width)).1, (valid (bytes.drop width)).2) := by
  have hwidth := decode_eq_char_width h
  rw [valid, validFuel_eq (Nat.le_refl _), validFuel, h]
  dsimp only
  rw [validFuel_of_le (by rw [List.length_drop]; omega)]

theorem valid_of_not_char {bytes : List UInt8} (h : ∀ c width, decode bytes ≠ .char c width) :
    valid bytes = ([], bytes) := by
  rw [valid, validFuel_eq (Nat.le_refl _), validFuel]
  split
  · next c width hchar => exact absurd hchar (h c width)
  · rfl

@[simp] theorem lossy_nil : lossy [] = [] := rfl

theorem lossy_of_char {bytes : List UInt8} {c : Char} {width : Nat}
    (h : decode bytes = .char c width) : lossy bytes = c :: lossy (bytes.drop width) := by
  have hwidth := decode_eq_char_width h
  cases bytes with
  | nil => cases h
  | cons first rest =>
    rw [lossy, lossyFuel_eq (Nat.le_refl _), lossyFuel, h]
    dsimp only
    rw [lossyFuel_of_le (by rw [List.length_drop]; omega)]

theorem lossy_of_invalid {bytes : List UInt8} {width : Nat} (h : decode bytes = .invalid width) :
    lossy bytes = '\uFFFD' :: lossy (bytes.drop width) := by
  have hwidth := decode_eq_invalid_width h
  cases bytes with
  | nil => cases h
  | cons first rest =>
    rw [lossy, lossyFuel_eq (Nat.le_refl _), lossyFuel, h]
    dsimp only
    rw [lossyFuel_of_le (by rw [List.length_drop]; omega)]

theorem lossy_of_incomplete {bytes : List UInt8} (hne : bytes ≠ [])
    (h : decode bytes = .incomplete) : lossy bytes = ['\uFFFD'] := by
  obtain ⟨first, rest, rfl⟩ := List.exists_cons_of_ne_nil hne
  rw [lossy, lossyFuel_eq (Nat.le_refl _), lossyFuel, h]

/-- Decoding goes on after the valid part. -/
theorem valid_spec (bytes : List UInt8) : bytes = encode (valid bytes).1 ++ (valid bytes).2 ∧
    lossy bytes = (valid bytes).1 ++ lossy (valid bytes).2 ∧
    ∀ c width, decode (valid bytes).2 ≠ .char c width := by
  induction hlength : bytes.length using Nat.strong_induction_on generalizing bytes with
  | _ length ih =>
    by_cases hchar : ∃ c width, decode bytes = .char c width
    · obtain ⟨c, width, hchar⟩ := hchar
      have hwidth := decode_eq_char_width hchar
      obtain ⟨hsplit, hlossy, hend⟩ := ih (bytes.drop width).length
        (by rw [List.length_drop]; omega) (bytes.drop width) rfl
      obtain ⟨rest, hbytes, hlen⟩ := utf8EncodeChar_of_decode hchar
      have hrest : bytes.drop width = rest := by rw [hbytes, hlen, List.drop_left]
      rw [valid_of_char hchar, lossy_of_char hchar]
      refine ⟨?_, ?_, hend⟩
      · rw [encode_cons, List.append_assoc, ← hsplit, hrest]
        exact hbytes
      · rw [hlossy, List.cons_append]
    · rw [not_exists] at hchar
      rw [valid_of_not_char fun c width h => hchar c ⟨width, h⟩]
      exact ⟨rfl, rfl, fun c width h => hchar c ⟨width, h⟩⟩

theorem valid_encode_append (text : List Char) (bytes : List UInt8) :
    valid (encode text ++ bytes) = (text ++ (valid bytes).1, (valid bytes).2) := by
  induction text with
  | nil => rfl
  | cons c text ih =>
    have hdecode := decode_utf8EncodeChar c (encode text ++ bytes)
    rw [encode_cons, List.append_assoc, valid_of_char hdecode,
      List.drop_left, ih]
    rfl

theorem valid_encode (text : List Char) : valid (encode text) = (text, []) := by
  have h := valid_encode_append text []
  rwa [List.append_nil, show valid [] = ([], []) from rfl, List.append_nil] at h

theorem lossy_encode (text : List Char) : lossy (encode text) = text := by
  induction text with
  | nil => rfl
  | cons c text ih =>
    rw [encode_cons, lossy_of_char (decode_utf8EncodeChar c (encode text)),
      List.drop_left, ih]

theorem lossy_encode_append (text : List Char) (bytes : List UInt8) :
    lossy (encode text ++ bytes) = text ++ lossy bytes := by
  induction text with
  | nil => rfl
  | cons c text ih =>
    rw [encode_cons, List.append_assoc,
      lossy_of_char (decode_utf8EncodeChar c (encode text ++ bytes)), List.drop_left, ih]
    rfl

/-- What stands before the first sequence that is no character is decoded once and for all. -/
theorem lossy_append (bytes more : List UInt8) :
    lossy (bytes ++ more) = (valid bytes).1 ++ lossy ((valid bytes).2 ++ more) := by
  have hsplit := (valid_spec bytes).1
  calc lossy (bytes ++ more) = lossy (encode (valid bytes).1 ++ ((valid bytes).2 ++ more)) := by
        rw [← List.append_assoc, ← hsplit]
    _ = _ := lossy_encode_append _ _

theorem lossy_append_of_invalid {bytes : List UInt8} {width : Nat}
    (h : decode bytes = .invalid width) (more : List UInt8) :
    lossy (bytes ++ more) = '\uFFFD' :: lossy (bytes.drop width ++ more) := by
  have hwidth := decode_eq_invalid_width h
  have hdecode : decode (bytes ++ more) = .invalid width := by
    rw [decode_append (by rw [h]; simp), h]
  rw [lossy_of_invalid hdecode, List.drop_append_of_le_length hwidth.2]

/-- A text is determined by its bytes, also when others follow. -/
theorem isPrefix_of_encode {left right : List Char} (h : encode left <+: encode right) :
    left <+: right := by
  induction left generalizing right with
  | nil => exact List.nil_prefix
  | cons c left ih =>
    obtain ⟨after, hafter⟩ := h
    rw [encode_cons, List.append_assoc] at hafter
    have hleft := decode_utf8EncodeChar c (encode left ++ after)
    cases right with
    | nil =>
      rw [hafter] at hleft
      cases hleft
    | cons d right =>
      rw [hafter, encode_cons, decode_utf8EncodeChar] at hleft
      obtain ⟨rfl, -⟩ := Step.char.inj hleft
      rw [encode_cons] at hafter
      have hrest := List.append_cancel_left hafter
      exact List.cons_prefix_cons.mpr ⟨rfl, ih ⟨after, hrest⟩⟩

/-- A byte inside a character. -/
def IsContinuation (byte : UInt8) : Prop := 0x80 ≤ byte.toNat ∧ byte.toNat < 0xC0

/-- A character starts where a byte is no continuation. -/
theorem utf8EncodeChar_parts (c : Char) : ∃ first rest, String.utf8EncodeChar c = first :: rest ∧
    ¬ IsContinuation first ∧ ∀ byte ∈ rest, IsContinuation byte := by
  have hrange := char_range c
  have hvalue : c.val.toNat = c.toNat := rfl
  have hbyte : ∀ n < 256, IsContinuation (UInt8.ofNat n) ↔ 0x80 ≤ n ∧ n < 0xC0 := by
    intro n hn
    rw [IsContinuation, toNat_ofNat_byte hn]
  unfold String.utf8EncodeChar
  dsimp only
  rw [hvalue]
  split
  · refine ⟨_, _, rfl, ?_, by simp⟩
    rw [hbyte _ (by omega)]
    omega
  split
  · refine ⟨_, _, rfl, ?_, ?_⟩
    · rw [hbyte _ (by omega)]
      omega
    · rw [List.forall_mem_singleton, hbyte _ (by omega)]
      omega
  split
  · refine ⟨_, _, rfl, ?_, ?_⟩
    · rw [hbyte _ (by omega)]
      omega
    · rw [List.forall_mem_cons, List.forall_mem_singleton, hbyte _ (by omega), hbyte _ (by omega)]
      omega
  · refine ⟨_, _, rfl, ?_, ?_⟩
    · rw [hbyte _ (by omega)]
      omega
    · rw [List.forall_mem_cons, List.forall_mem_cons, List.forall_mem_singleton,
        hbyte _ (by omega), hbyte _ (by omega), hbyte _ (by omega)]
      omega

/-- A text is found in another one by its bytes: no match starts inside a character. -/
theorem encode_isInfix_iff {part whole : List Char} (hne : part ≠ []) :
    encode part <:+: encode whole ↔ part <:+: whole := by
  constructor
  · rintro ⟨before, after, h⟩
    obtain ⟨d, others, rfl⟩ := List.exists_cons_of_ne_nil hne
    obtain ⟨start, more, hstart, hnot, -⟩ := utf8EncodeChar_parts d
    rw [List.append_assoc] at h
    induction whole generalizing before with
    | nil =>
      rw [encode_cons, hstart] at h
      simp [encode] at h
    | cons c whole ih =>
      cases before with
      | nil => exact (isPrefix_of_encode ⟨after, h⟩).isInfix
      | cons byte before =>
        rw [encode_cons c] at h
        apply List.IsInfix.trans _ (List.suffix_cons c whole).isInfix
        rcases List.append_eq_append_iff.mp h with ⟨gap, hgap, htail⟩ | ⟨gap, hgap, htail⟩
        · cases gap with
          | nil => exact ih [] htail
          | cons inner gap =>
            -- The match would start inside the character.
            obtain ⟨first, rest, hfirst, -, hrest⟩ := utf8EncodeChar_parts c
            rw [hfirst, List.cons_append, List.cons.injEq] at hgap
            rw [encode_cons, hstart, List.cons_append, List.cons_append, List.cons_append,
              List.cons.injEq] at htail
            rw [htail.1] at hnot
            exact absurd (hrest inner (by simp [hgap.2])) hnot
        · exact ih gap htail.symm
  · rintro ⟨before, after, rfl⟩
    exact ⟨encode before, encode after, by rw [encode_append, encode_append]⟩

end ForStd.Utf8
