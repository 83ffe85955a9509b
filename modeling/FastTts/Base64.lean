import FastTts.Utf8Spans

/-!
# Base64

`base64_encode` writes three bytes as four characters and pads the last group. `base64_decode` reads
one character after the other: it shifts six bits at a time through a 32-bit register, whatever has
been in it before, and puts out a byte as soon as eight bits are there. Blanks are left out wherever
they stand.
-/

namespace FastTts

open Utf8Spans (forall_byte)

/-! ## Encoding -/

def base64Alphabet : Bytes :=
  bytes "ABCDEFGHIJKLMNOPQRSTUVWXYZabcdefghijklmnopqrstuvwxyz0123456789+/"

def base64Digit (chunk place : ℕ) : UInt8 := base64Alphabet.getD (chunk / 64 ^ place % 64) 0x3D

def base64Encode : Bytes → Bytes
  | [] => []
  | [b0] =>
    let chunk := b0.toNat * 65536
    [base64Digit chunk 3, base64Digit chunk 2, 0x3D, 0x3D]
  | [b0, b1] =>
    let chunk := b0.toNat * 65536 + b1.toNat * 256
    [base64Digit chunk 3, base64Digit chunk 2, base64Digit chunk 1, 0x3D]
  | b0 :: b1 :: b2 :: rest =>
    let chunk := b0.toNat * 65536 + b1.toNat * 256 + b2.toNat
    [base64Digit chunk 3, base64Digit chunk 2, base64Digit chunk 1, base64Digit chunk 0] ++
      base64Encode rest

/-- The bytes of a text in base64. -/
def isBase64 (ch : UInt8) : Bool := isAlnum ch || ch == 0x2B || ch == 0x2F || ch == 0x3D

theorem base64Encode_isBase64 (data : Bytes) : ∀ ch ∈ base64Encode data, isBase64 ch = true := by
  have hdigit : ∀ chunk place, isBase64 (base64Digit chunk place) = true := by
    intro chunk place
    have hall : ∀ n : Fin 64, isBase64 (base64Alphabet.getD n 0x3D) = true := by decide +kernel
    exact hall ⟨chunk / 64 ^ place % 64, Nat.mod_lt _ (by decide)⟩
  have hpad : isBase64 0x3D = true := rfl
  induction data using base64Encode.induct with
  | case1 => exact List.forall_mem_nil _
  | case2 b0 => simp [base64Encode, hdigit, hpad]
  | case3 b0 b1 => simp [base64Encode, hdigit, hpad]
  | case4 b0 b1 b2 rest ih =>
    rw [base64Encode]
    intro ch hch
    obtain hch | hch := List.mem_append.mp hch
    · simp only [List.mem_cons, List.not_mem_nil, or_false] at hch
      obtain rfl | rfl | rfl | rfl := hch <;> exact hdigit _ _
    · exact ih ch hch

/-! ## Decoding -/

def decodeChar (c : UInt8) : Option ℕ :=
  if 0x41 ≤ c ∧ c ≤ 0x5A then some (c.toNat - 0x41)
  else if 0x61 ≤ c ∧ c ≤ 0x7A then some (c.toNat - 0x61 + 26)
  else if 0x30 ≤ c ∧ c ≤ 0x39 then some (c.toNat - 0x30 + 52)
  else if c = 0x2B then some 62
  else if c = 0x2F then some 63
  else none

/-- A data URI loses all up to its first comma. -/
def base64Payload (input : Bytes) : Except String Bytes :=
  if (bytes "data:").isPrefixOf input then
    match find input [0x2C], find input (bytes ";base64") with
    | some comma, some _ => .ok (input.drop (comma + 1))
    | _, _ => .error "malformed base64 data URI"
  else .ok input

def isBase64Blank (c : UInt8) : Bool := c == 0x20 || c == 0x09 || c == 0x0D || c == 0x0A

structure Base64Decoder where
  out : Bytes
  buffer : UInt32
  bits : ℕ
  padding : ℕ
  deriving DecidableEq

/-- Six more bits. -/
def Base64Decoder.shift (d : Base64Decoder) (value : ℕ) : Base64Decoder :=
  let buffer := d.buffer <<< 6 ||| UInt32.ofNat value
  let bits := d.bits + 6
  if 8 ≤ bits then
    { d with
      out := d.out ++ [(buffer >>> UInt32.ofNat (bits - 8) &&& 0xFF).toUInt8]
      buffer := buffer
      bits := bits - 8 }
  else { d with buffer := buffer, bits := bits }

def Base64Decoder.read (d : Base64Decoder) (c : UInt8) : Except String Base64Decoder :=
  if isBase64Blank c then .ok d
  else if c = 0x3D then
    if 2 < d.padding + 1 then .error "malformed base64 payload: excess padding"
    else .ok { d with padding := d.padding + 1 }
  else if 0 < d.padding then .error "malformed base64 payload: data after padding"
  else match decodeChar c with
    | some value => .ok (d.shift value)
    | none => .error "malformed base64 payload: invalid character"

def base64Decode (input : Bytes) : Except String Bytes := do
  let payload ← base64Payload input
  let d ← payload.foldlM Base64Decoder.read ⟨[], 0, 0, 0⟩
  if 6 ≤ d.bits then .error "malformed base64 payload: truncated quartet" else .ok d.out

/-! ## One character -/

variable {value k : ℕ} {input data : Bytes} (buffer : UInt32) (out : Bytes)

theorem toNat_shifted (h : value < 64) :
    (buffer <<< 6 ||| UInt32.ofNat value).toNat = (buffer.toNat * 64 + value) % 2 ^ 32 := by
  have hvalue : (UInt32.ofNat value).toNat = value := by
    rw [UInt32.toNat_ofNat']
    omega
  have hbuffer : (buffer <<< 6).toNat = 2 ^ 6 * (buffer.toNat % 2 ^ 26) := by
    rw [UInt32.toNat_shiftLeft, Nat.shiftLeft_eq]
    change buffer.toNat * 2 ^ 6 % 2 ^ 32 = _
    omega
  rw [UInt32.toNat_or, hvalue, hbuffer, ← Nat.two_pow_add_eq_or_of_lt h]
  omega

theorem byte_shifted (h : k < 32) :
    (buffer >>> UInt32.ofNat k &&& 0xFF).toUInt8 = UInt8.ofNat (buffer.toNat / 2 ^ k) := by
  have hk : (UInt32.ofNat k).toNat % 32 = k := by
    rw [UInt32.toNat_ofNat']
    omega
  rw [← UInt8.toNat_inj, UInt32.toNat_toUInt8, UInt32.toNat_and, UInt32.toNat_shiftRight, hk,
    Nat.shiftRight_eq_div_pow, UInt8.toNat_ofNat']
  change (buffer.toNat / 2 ^ k &&& 2 ^ 8 - 1) % 2 ^ 8 = _
  rw [Nat.and_two_pow_sub_one_eq_mod, Nat.mod_mod]

theorem shift_first (buffer : UInt32) (value : ℕ) :
    (⟨out, buffer, 0, 0⟩ : Base64Decoder).shift value =
      ⟨out, buffer <<< 6 ||| UInt32.ofNat value, 6, 0⟩ :=
  rfl

theorem shift_byte (buffer : UInt32) {bits : ℕ} (hbits : 2 ≤ bits) (hlt : bits < 8) (value : ℕ) :
    (⟨out, buffer, bits, 0⟩ : Base64Decoder).shift value =
      ⟨out ++ [UInt8.ofNat ((buffer <<< 6 ||| UInt32.ofNat value).toNat / 2 ^ (bits - 2))],
        buffer <<< 6 ||| UInt32.ofNat value, bits - 2, 0⟩ := by
  rw [Base64Decoder.shift]
  dsimp only
  rw [if_pos (by omega), byte_shifted _ (by omega)]
  rfl

theorem decodeChar_digit (chunk place : ℕ) :
    decodeChar (base64Digit chunk place) = some (chunk / 64 ^ place % 64) := by
  have hall : ∀ n : Fin 64, decodeChar (base64Alphabet.getD n 0x3D) = some n.val := by
    decide +kernel
  exact hall ⟨chunk / 64 ^ place % 64, Nat.mod_lt _ (by decide)⟩

variable {d d' : Base64Decoder} {c : UInt8} {text : Bytes}

theorem read_of_decodeChar (hpadding : d.padding = 0) (h : decodeChar c = some value) :
    d.read c = .ok (d.shift value) := by
  have hplain := forall_byte (p := fun c => decodeChar c ≠ none →
    isBase64Blank c = false ∧ c ≠ 0x3D) (by decide +kernel) c
  obtain ⟨hblank, hpad⟩ := hplain (by rw [h]; exact Option.some_ne_none value)
  rw [Base64Decoder.read, hblank, if_neg Bool.false_ne_true, if_neg hpad, hpadding,
    if_neg (Nat.lt_irrefl 0), h]

theorem read_digit (d : Base64Decoder) (hpadding : d.padding = 0) (chunk place : ℕ) :
    d.read (base64Digit chunk place) = .ok (d.shift (chunk / 64 ^ place % 64)) :=
  read_of_decodeChar hpadding (decodeChar_digit chunk place)

theorem read_pad (h : d.padding < 2) : d.read 0x3D = .ok { d with padding := d.padding + 1 } := by
  rw [Base64Decoder.read, if_neg (by decide), if_pos rfl, if_neg (by omega)]

theorem foldlM_cons_ok (h : d.read c = .ok d') (text : Bytes) :
    (c :: text).foldlM Base64Decoder.read d = text.foldlM Base64Decoder.read d' := by
  rw [List.foldlM_cons, h]
  rfl

/-! ## The round trip -/

/-- A byte that is put out is made of the last two digits, whatever the register held before. -/
theorem byte_of_digits {a b : ℕ} (ha : a < 64) (hb : b < 64) (hk : k = 0 ∨ k = 2 ∨ k = 4) :
    UInt8.ofNat (((buffer <<< 6 ||| UInt32.ofNat a) <<< 6 ||| UInt32.ofNat b).toNat / 2 ^ k) =
      UInt8.ofNat ((a * 64 + b) / 2 ^ k) := by
  rw [← UInt8.toNat_inj, UInt8.toNat_ofNat', UInt8.toNat_ofNat', toNat_shifted _ hb,
    toNat_shifted _ ha]
  obtain rfl | rfl | rfl := hk <;> omega

theorem eq_of_toNat {b : UInt8} {n : ℕ} (h : n % 2 ^ 8 = b.toNat) : UInt8.ofNat n = b := by
  rw [← UInt8.toNat_inj, UInt8.toNat_ofNat', h]

theorem digit_lt (chunk place : ℕ) : chunk / 64 ^ place % 64 < 64 := Nat.mod_lt _ (by decide)

theorem foldlM_encode (data out : Bytes) (buffer : UInt32) : ∃ buffer' bits padding, bits < 6 ∧
    (base64Encode data).foldlM Base64Decoder.read ⟨out, buffer, 0, 0⟩ =
      .ok ⟨out ++ data, buffer', bits, padding⟩ := by
  induction data using base64Encode.induct generalizing out buffer with
  | case1 => exact ⟨buffer, 0, 0, by decide, by rw [List.append_nil]; rfl⟩
  | case2 b0 =>
    have h0 := b0.toNat_lt
    rw [base64Encode, foldlM_cons_ok (read_digit _ rfl _ _), shift_first,
      foldlM_cons_ok (read_digit _ rfl _ _), shift_byte _ _ (by decide) (by decide),
      foldlM_cons_ok (read_pad (by simp)), foldlM_cons_ok (read_pad (by simp)),
      byte_of_digits _ (digit_lt _ _) (digit_lt _ _) (by decide),
      eq_of_toNat (b := b0) (by simp only [Nat.reducePow]; omega)]
    exact ⟨_, 4, 2, by decide, rfl⟩
  | case3 b0 b1 =>
    have h0 := b0.toNat_lt
    have h1 := b1.toNat_lt
    rw [base64Encode, foldlM_cons_ok (read_digit _ rfl _ _), shift_first,
      foldlM_cons_ok (read_digit _ rfl _ _), shift_byte _ _ (by decide) (by decide),
      foldlM_cons_ok (read_digit _ rfl _ _), shift_byte _ _ (by decide) (by decide),
      foldlM_cons_ok (read_pad (by simp)),
      byte_of_digits _ (digit_lt _ _) (digit_lt _ _) (by decide),
      eq_of_toNat (b := b0) (by simp only [Nat.reducePow]; omega),
      byte_of_digits _ (digit_lt _ _) (digit_lt _ _) (by decide),
      eq_of_toNat (b := b1) (by simp only [Nat.reducePow]; omega),
      List.append_assoc]
    exact ⟨_, 2, 1, by decide, rfl⟩
  | case4 b0 b1 b2 rest ih =>
    have h0 := b0.toNat_lt
    have h1 := b1.toNat_lt
    have h2 := b2.toNat_lt
    rw [base64Encode, List.cons_append, List.cons_append, List.cons_append, List.cons_append,
      List.nil_append, foldlM_cons_ok (read_digit _ rfl _ _), shift_first,
      foldlM_cons_ok (read_digit _ rfl _ _), shift_byte _ _ (by decide) (by decide),
      foldlM_cons_ok (read_digit _ rfl _ _), shift_byte _ _ (by decide) (by decide),
      foldlM_cons_ok (read_digit _ rfl _ _), shift_byte _ _ (by decide) (by decide),
      byte_of_digits _ (digit_lt _ _) (digit_lt _ _) (by decide),
      eq_of_toNat (b := b0) (by simp only [Nat.reducePow]; omega),
      byte_of_digits _ (digit_lt _ _) (digit_lt _ _) (by decide),
      eq_of_toNat (b := b1) (by simp only [Nat.reducePow]; omega),
      byte_of_digits _ (digit_lt _ _) (digit_lt _ _) (by decide),
      eq_of_toNat (b := b2) (by simp only [Nat.reducePow]; omega)]
    obtain ⟨buffer', bits, padding, hbits, hrest⟩ := ih (out ++ [b0] ++ [b1] ++ [b2]) _
    refine ⟨buffer', bits, padding, hbits, hrest.trans ?_⟩
    simp only [List.append_assoc, List.cons_append, List.nil_append]

/-! ## What is accepted -/

/-- A payload without its blanks. -/
def stripped (text : Bytes) : Bytes := text.filter fun c => !isBase64Blank c

/-- Characters of the alphabet, and then at most two of padding. -/
def IsBase64Payload (text : Bytes) : Prop :=
  ∃ (digits : Bytes) (pads : ℕ), text = digits ++ List.replicate pads 0x3D ∧ pads ≤ 2 ∧
    (∀ c ∈ digits, c ∈ base64Alphabet) ∧ digits.length % 4 ≠ 1

theorem decodeChar_iff (c : UInt8) : (∃ value, decodeChar c = some value) ↔ c ∈ base64Alphabet := by
  rw [← Option.ne_none_iff_exists']
  revert c
  apply forall_byte
  decide +kernel

theorem foldlM_stripped (text : Bytes) (d : Base64Decoder) :
    text.foldlM Base64Decoder.read d = (stripped text).foldlM Base64Decoder.read d := by
  induction text generalizing d with
  | nil => rfl
  | cons c text ih =>
    by_cases hblank : isBase64Blank c = true
    · have hread : d.read c = .ok d := by rw [Base64Decoder.read, if_pos hblank]
      rw [foldlM_cons_ok hread, ih, stripped, stripped, List.filter_cons_of_neg (by simp [hblank])]
    · rw [stripped, List.filter_cons_of_pos (by simp [hblank]), ← stripped, List.foldlM_cons,
        List.foldlM_cons]
      exact congrArg (d.read c >>= ·) (funext ih)

theorem bits_shift (h : d.bits < 8) (value : ℕ) :
    (d.shift value).bits = (d.bits + 6) % 8 ∧ (d.shift value).padding = d.padding := by
  rw [Base64Decoder.shift]
  split_ifs with hbyte
  · dsimp only
    omega
  · dsimp only
    omega

theorem foldlM_digits {digits : Bytes} (hdigits : ∀ c ∈ digits, c ∈ base64Alphabet)
    (hbits : d.bits < 8) (hpadding : d.padding = 0) : ∃ d',
      digits.foldlM Base64Decoder.read d = .ok d' ∧ d'.padding = 0 ∧
      d'.bits = (d.bits + 6 * digits.length) % 8 := by
  induction digits generalizing d with
  | nil => exact ⟨d, rfl, hpadding, (Nat.mod_eq_of_lt hbits).symm⟩
  | cons c digits ih =>
    obtain ⟨hc, hrest⟩ := List.forall_mem_cons.mp hdigits
    obtain ⟨value, hvalue⟩ := (decodeChar_iff c).mpr hc
    obtain ⟨hshift, hpad⟩ := bits_shift hbits value
    obtain ⟨d', hd', hpadding', hbits'⟩ := ih hrest (d := d.shift value) (by omega)
      (hpad.trans hpadding)
    refine ⟨d', (foldlM_cons_ok (read_of_decodeChar hpadding hvalue) digits).trans hd',
      hpadding', ?_⟩
    rw [hbits', hshift, List.length_cons]
    omega

theorem foldlM_pads (pads : ℕ) (h : d.padding + pads ≤ 2) :
    (List.replicate pads 0x3D).foldlM Base64Decoder.read d =
      .ok { d with padding := d.padding + pads } := by
  induction pads generalizing d with
  | zero => rfl
  | succ pads ih =>
    rw [List.replicate_succ, foldlM_cons_ok (read_pad (by omega)), ih (by dsimp only; omega)]
    dsimp only
    rw [Nat.add_assoc, Nat.add_comm 1 pads]

theorem read_cases (hblank : isBase64Blank c = false) (h : d.read c = .ok d') :
    c = 0x3D ∧ d.padding < 2 ∧ d' = { d with padding := d.padding + 1 } ∨
      c ∈ base64Alphabet ∧ d.padding = 0 ∧ ∃ value, d' = d.shift value := by
  rw [Base64Decoder.read, hblank, if_neg Bool.false_ne_true] at h
  split_ifs at h with hpad hexcess hdata
  · cases h
    exact .inl ⟨hpad, by omega, rfl⟩
  · cases hvalue : decodeChar c with
    | none =>
      rw [hvalue] at h
      cases h
    | some value =>
      rw [hvalue] at h
      cases h
      exact .inr ⟨(decodeChar_iff c).mp ⟨value, hvalue⟩, by omega, value, rfl⟩

theorem payload_of_foldlM (htext : ∀ c ∈ text, isBase64Blank c = false) (hbits : d.bits < 8)
    (hpadding : d.padding ≤ 2) (h : text.foldlM Base64Decoder.read d = .ok d') :
    ∃ (digits : Bytes) (pads : ℕ),
      text = digits ++ List.replicate pads 0x3D ∧ d.padding + pads ≤ 2 ∧
      (∀ c ∈ digits, c ∈ base64Alphabet) ∧ (digits ≠ [] → d.padding = 0) ∧
      d'.bits = (d.bits + 6 * digits.length) % 8 := by
  induction text generalizing d with
  | nil =>
    cases h
    exact ⟨[], 0, rfl, hpadding, nofun, fun hne => absurd rfl hne, (Nat.mod_eq_of_lt hbits).symm⟩
  | cons c text ih =>
    obtain ⟨hc, hrest⟩ := List.forall_mem_cons.mp htext
    rw [List.foldlM_cons] at h
    cases hread : d.read c with
    | error message =>
      rw [hread] at h
      cases h
    | ok next =>
      rw [hread] at h
      have htail : text.foldlM Base64Decoder.read next = .ok d' := h
      rcases read_cases hc hread with ⟨rfl, hlt, rfl⟩ | ⟨hmem, hzero, value, rfl⟩
      · -- behind padding there are no digits any more
        obtain ⟨digits, pads, rfl, hpads, -, hnone, hbits'⟩ :=
          ih (d := { d with padding := d.padding + 1 }) hrest hbits hlt htail
        have hnil : digits = [] := by
          by_contra hne
          exact absurd (hnone hne) (Nat.succ_ne_zero _)
        subst hnil
        exact ⟨[], pads + 1, rfl, by dsimp only at hpads; omega, nofun,
          fun hne => absurd rfl hne, hbits'⟩
      · obtain ⟨hshift, hpad⟩ := bits_shift hbits value
        obtain ⟨digits, pads, rfl, hpads, hdigits, -, hbits'⟩ := ih hrest (by omega) (by omega)
          htail
        refine ⟨c :: digits, pads, rfl, by omega, List.forall_mem_cons.mpr ⟨hmem, hdigits⟩,
          fun _ => hzero, ?_⟩
        rw [hbits', hshift, List.length_cons]
        omega

theorem decode_ok_iff {payload : Bytes} (h : base64Payload input = .ok payload) :
    (∃ data, base64Decode input = .ok data) ↔ IsBase64Payload (stripped payload) := by
  have hplain : ∀ c ∈ stripped payload, isBase64Blank c = false := fun c hc => by
    simpa using (List.mem_filter.mp hc).2
  rw [base64Decode, h]
  change (∃ data, (payload.foldlM Base64Decoder.read ⟨[], 0, 0, 0⟩ >>= _) = .ok data) ↔ _
  rw [foldlM_stripped]
  generalize stripped payload = text at hplain
  constructor
  · rintro ⟨data, hdata⟩
    cases hread : text.foldlM Base64Decoder.read ⟨[], 0, 0, 0⟩ with
    | error message =>
      rw [hread] at hdata
      cases hdata
    | ok d =>
      rw [hread] at hdata
      obtain ⟨digits, pads, htext, hpads, hdigits, -, hbits⟩ :=
        payload_of_foldlM hplain (by decide) (by decide) hread
      have hlt : ¬ 6 ≤ d.bits := fun hle => by
        change (if 6 ≤ d.bits then _ else _) = _ at hdata
        rw [if_pos hle] at hdata
        cases hdata
      dsimp only at hpads hbits
      exact ⟨digits, pads, htext, by omega, hdigits, by omega⟩
  · rintro ⟨digits, pads, rfl, hpads, hdigits, hlength⟩
    obtain ⟨d, hd, hpadding, hbits⟩ := foldlM_digits hdigits (d := ⟨[], 0, 0, 0⟩) (by decide) rfl
    have hall : (digits ++ List.replicate pads 0x3D).foldlM Base64Decoder.read ⟨[], 0, 0, 0⟩ =
        .ok { d with padding := d.padding + pads } := by
      rw [List.foldlM_append, hd]
      exact foldlM_pads pads (by omega)
    dsimp only at hbits
    rw [hall]
    exact ⟨d.out, if_neg (by dsimp only; omega)⟩

theorem decode_payload (hpayload : base64Payload input = .ok text)
    (h : stripped text = base64Encode data) : base64Decode input = .ok data := by
  obtain ⟨buffer, bits, padding, hbits, hread⟩ := foldlM_encode data [] 0
  rw [base64Decode, hpayload]
  change (text.foldlM Base64Decoder.read ⟨[], 0, 0, 0⟩ >>= _) = .ok data
  rw [foldlM_stripped, h, hread]
  exact if_neg (by dsimp only; omega)

theorem stripped_encode (data : Bytes) : stripped (base64Encode data) = base64Encode data := by
  refine List.filter_eq_self.mpr fun c hc => ?_
  have hplain := forall_byte (p := fun c => isBase64 c = true → (!isBase64Blank c) = true)
    (by decide +kernel) c
  exact hplain (base64Encode_isBase64 data c hc)

/-- A colon is neither a blank nor base64, so no blanks make a data URI out of a payload. -/
theorem payload_of_stripped (h : stripped text = base64Encode data) :
    base64Payload text = .ok text := by
  refine if_neg fun hdata => ?_
  obtain ⟨rest, hrest⟩ := List.isPrefixOf_iff_prefix.mp hdata
  have hcolon : (0x3A : UInt8) ∈ stripped text := by
    rw [← hrest]
    exact List.mem_filter.mpr ⟨List.mem_append_left _ (by decide), by decide⟩
  rw [h] at hcolon
  exact absurd (base64Encode_isBase64 data _ hcolon) (by decide)

theorem payload_of_uri {kind : Bytes} (hkind : 0x2C ∉ kind) (text : Bytes) :
    base64Payload (bytes "data:" ++ kind ++ bytes ";base64," ++ text) = .ok text := by
  have hinput : bytes "data:" ++ kind ++ bytes ";base64," ++ text =
      (bytes "data:" ++ kind ++ bytes ";base64") ++ 0x2C :: text := by
    have hmarker : bytes ";base64," = bytes ";base64" ++ [0x2C] := by decide
    rw [hmarker]
    simp only [List.append_assoc, List.singleton_append]
  have hcomma : (0x2C : UInt8) ∉ bytes "data:" ++ kind ++ bytes ";base64" := by
    have hdata : (0x2C : UInt8) ∉ bytes "data:" := by decide
    have hmarker : (0x2C : UInt8) ∉ bytes ";base64" := by decide
    simp only [List.mem_append, not_or]
    exact ⟨⟨hdata, hkind⟩, hmarker⟩
  have hdata : (bytes "data:").isPrefixOf
      ((bytes "data:" ++ kind ++ bytes ";base64") ++ 0x2C :: text) = true := by
    rw [List.append_assoc, List.append_assoc]
    exact List.isPrefixOf_iff_prefix.mpr (List.prefix_append ..)
  have hfind := find_byte hcomma text
  rw [hinput, base64Payload, if_pos hdata, hfind]
  cases hmarker : find ((bytes "data:" ++ kind ++ bytes ";base64") ++ 0x2C :: text)
      (bytes ";base64") with
  | none => exact absurd ⟨bytes "data:" ++ kind, 0x2C :: text, rfl⟩ (find_eq_none hmarker)
  | some index =>
    dsimp only
    rw [← List.drop_drop, List.drop_left]
    rfl

/-- Whatever is encoded is decoded again, with blanks anywhere and behind any prefix of a data URI;
and of the payloads only those are decoded that are base64 with at most two characters of padding
and no single character in the last group. -/
theorem base64_roundtrip :
    (∀ data, base64Decode (base64Encode data) = .ok data) ∧
    (∀ data text, stripped text = base64Encode data → base64Decode text = .ok data ∧
      ∀ kind, 0x2C ∉ kind →
        base64Decode (bytes "data:" ++ kind ++ bytes ";base64," ++ text) = .ok data) ∧
    ∀ input payload, base64Payload input = .ok payload →
      ((∃ data, base64Decode input = .ok data) ↔ IsBase64Payload (stripped payload)) := by
  refine ⟨fun data => ?_, fun data text htext => ⟨?_, fun kind hkind => ?_⟩, ?_⟩
  · have hplain := stripped_encode data
    exact decode_payload (payload_of_stripped hplain) hplain
  · exact decode_payload (payload_of_stripped htext) htext
  · exact decode_payload (payload_of_uri hkind text) htext
  · exact fun input payload => decode_ok_iff

end FastTts
