import JfsReader.WriteBuffer

/-!
# Conversion of names to UTF-8

The two conversion routines of `jfs_unicode.c`, table and budget included, and
the list they write: a character whose encoding no longer fits the budget is
skipped at the price of one byte, and the conversion goes on with the next.
What was not skipped can be read back from the bytes.
-/

namespace JfsReader

open WriteBuffer

abbrev UniChar := UInt16

/-- `struct utf8_table`, without `lval`, which nothing reads. -/
structure Utf8Row where
  cmask : ℕ
  cval : ℕ
  shift : ℕ
  lmask : ℕ

def utf8Table : List Utf8Row :=
  [⟨0x80, 0x00, 0 * 6, 0x7F⟩,
   ⟨0xE0, 0xC0, 1 * 6, 0x7FF⟩,
   ⟨0xF0, 0xE0, 2 * 6, 0xFFFF⟩,
   ⟨0xF8, 0xF0, 3 * 6, 0x1FFFFF⟩,
   ⟨0xFC, 0xF8, 4 * 6, 0x3FFFFFF⟩,
   ⟨0xFE, 0xFC, 5 * 6, 0x7FFFFFFF⟩,
   ⟨0, 0, 0, 0⟩]

/-- The loop that writes the bytes after the first one; the table's shifts are
multiples of six. -/
def utf8TrailingBytes (l : ℕ) : ℕ → ℕ → Buffer UInt8 → Buffer UInt8
  | c + 6, s, b =>
      utf8TrailingBytes l c (s + 1) (b.write (s + 1) (.ofNat (0x80 ||| ((l >>> c) &&& 0x3F))))
  | _, _, b => b

def utf8TableLoop (l s : ℕ) (b : Buffer UInt8) :
    List Utf8Row → ℕ → ℕ → Buffer UInt8 × Option ℕ
  | t :: ts, maxlen, nc =>
      if t.cmask ≠ 0 ∧ maxlen ≠ 0 then
        if l ≤ t.lmask then
          (utf8TrailingBytes l t.shift s (b.write s (.ofNat (t.cval ||| (l >>> t.shift)))),
            some (nc + 1))
        else utf8TableLoop l s b ts (maxlen - 1) (nc + 1)
      else (b, none)
  | [], _, _ => (b, none)

/-- `none` is the return value -1.  The test for a null `s` is left out: the
callers pass a position of `UTF8_Buffer`. -/
def unicodeCharacterToUtf8Character (b : Buffer UInt8) (s : ℕ) (wc : UniChar)
    (maxlen : ℕ) : Buffer UInt8 × Option ℕ :=
  utf8TableLoop wc.toNat s b utf8Table maxlen 0

/-- Each round takes at least one byte off the budget, so that many rounds are
enough. -/
def unicodeStringLoop (pwcs : ℕ → UniChar) :
    ℕ → ℕ → ℕ → ℕ → Buffer UInt8 → Buffer UInt8 × ℕ
  | 0, _, _, op, b => (b, op)
  | rounds + 1, maxlen, ip, op, b =>
      if pwcs ip ≠ 0 ∧ maxlen > 0 then
        if pwcs ip > 0x7f then
          match unicodeCharacterToUtf8Character b op (pwcs ip) maxlen with
          | (b, none) => unicodeStringLoop pwcs rounds (maxlen - 1) (ip + 1) op b
          | (b, some size) =>
              unicodeStringLoop pwcs rounds (maxlen - size) (ip + 1) (op + size) b
        else
          unicodeStringLoop pwcs rounds (maxlen - 1) (ip + 1) (op + 1)
            (b.write op (pwcs ip).toUInt8)
      else (b, op)

/-- The bytes are written from the start of the buffer on; the second component
is the return value. -/
def unicodeStringToUtf8String (b : Buffer UInt8) (pwcs : ℕ → UniChar) (maxlen : ℕ) :
    Buffer UInt8 × ℕ :=
  unicodeStringLoop pwcs maxlen maxlen 0 0 b

/-! ## What is written -/

def utf8Encode (u : UniChar) : List UInt8 :=
  let l := u.toNat
  if l ≤ 0x7F then [.ofNat l]
  else if l ≤ 0x7FF then [.ofNat (0xC0 ||| (l >>> 6)), .ofNat (0x80 ||| (l &&& 0x3F))]
  else [.ofNat (0xE0 ||| (l >>> 12)), .ofNat (0x80 ||| ((l >>> 6) &&& 0x3F)),
    .ofNat (0x80 ||| (l &&& 0x3F))]

/-- The encodings that fit one after the other into `budget` bytes. -/
def utf8Within : ℕ → List UniChar → List UInt8
  | _, [] => []
  | budget, u :: us =>
      if budget = 0 then []
      else if (utf8Encode u).length ≤ budget then
        utf8Encode u ++ utf8Within (budget - (utf8Encode u).length) us
      else utf8Within (budget - 1) us

theorem utf8Encode_length_pos (u : UniChar) : 0 < (utf8Encode u).length := by
  unfold utf8Encode
  dsimp only
  split_ifs <;> simp

theorem utf8Encode_of_le {u : UniChar} (h : u ≤ 0x7f) : utf8Encode u = [u.toUInt8] := by
  have hle : u.toNat ≤ 0x7F := h
  simp [utf8Encode, hle]

theorem unicodeCharacterToUtf8Character_eq (b : Buffer UInt8) (s : ℕ) (wc : UniChar)
    (maxlen : ℕ) :
    unicodeCharacterToUtf8Character b s wc maxlen =
      if (utf8Encode wc).length ≤ maxlen then
        (b.writeFrom s (utf8Encode wc), some (utf8Encode wc).length)
      else (b, none) := by
  have hmax : wc.toNat ≤ 0xFFFF := Nat.le_of_lt_succ wc.toNat_lt
  unfold unicodeCharacterToUtf8Character utf8Table utf8Encode
  by_cases h1 : wc.toNat ≤ 0x7F
  · rcases maxlen with _ | maxlen <;>
      simp [utf8TableLoop, utf8TrailingBytes, h1]
  · by_cases h2 : wc.toNat ≤ 0x7FF
    · rcases maxlen with _ | _ | maxlen <;>
        simp [utf8TableLoop, utf8TrailingBytes, h1, h2]
    · rcases maxlen with _ | _ | _ | maxlen <;>
        simp [utf8TableLoop, utf8TrailingBytes, h1, h2, hmax]

theorem unicodeStringLoop_eq {pwcs : ℕ → UniChar} {units : List UniChar}
    {rounds maxlen ip op : ℕ} {b : Buffer UInt8} (hrounds : maxlen ≤ rounds)
    (hunits : ∀ k (hk : k < units.length), pwcs (ip + k) = units[k])
    (hnonzero : ∀ u ∈ units, u ≠ 0) (hend : pwcs (ip + units.length) = 0) :
    unicodeStringLoop pwcs rounds maxlen ip op b =
      (b.writeFrom op (utf8Within maxlen units),
        op + (utf8Within maxlen units).length) := by
  induction units generalizing rounds maxlen ip op b with
  | nil =>
      have hzero : pwcs ip = 0 := hend
      cases rounds <;> simp [unicodeStringLoop, utf8Within, hzero]
  | cons u us ih =>
      have hhead : pwcs ip = u := hunits 0 (by simp)
      have hu : u ≠ 0 := hnonzero u (by simp)
      have htail : ∀ k (hk : k < us.length), pwcs (ip + 1 + k) = us[k] := by
        intro k hk
        have := hunits (k + 1) (by simpa using hk)
        rwa [List.getElem_cons_succ, show ip + (k + 1) = ip + 1 + k by omega] at this
      have htailNonzero : ∀ v ∈ us, v ≠ 0 := fun v hv => hnonzero v (by simp [hv])
      have htailEnd : pwcs (ip + 1 + us.length) = 0 := by
        rwa [List.length_cons, show ip + (us.length + 1) = ip + 1 + us.length by omega]
          at hend
      cases rounds with
      | zero =>
          obtain rfl : maxlen = 0 := by omega
          simp [unicodeStringLoop, utf8Within]
      | succ rounds =>
          by_cases hbudget : maxlen = 0
          · simp [unicodeStringLoop, utf8Within, hbudget]
          · have hpos : 0 < maxlen := by omega
            rw [unicodeStringLoop, hhead, if_pos ⟨hu, hpos⟩, utf8Within, if_neg hbudget]
            have hlen := utf8Encode_length_pos u
            by_cases hascii : 0x7f < u
            · rw [if_pos hascii, unicodeCharacterToUtf8Character_eq]
              by_cases hfits : (utf8Encode u).length ≤ maxlen
              · simp only [hfits, if_true]
                rw [ih (by omega) htail htailNonzero htailEnd, Buffer.writeFrom_append,
                  List.length_append, Nat.add_assoc]
              · simp only [hfits, if_false]
                exact ih (by omega) htail htailNonzero htailEnd
            · have hone := utf8Encode_of_le (UInt16.not_lt.mp hascii)
              rw [if_neg hascii, ih (by omega) htail htailNonzero htailEnd, hone,
                if_pos (by simp; omega)]
              simp
              omega

theorem unicodeStringToUtf8String_eq {pwcs : ℕ → UniChar} {units : List UniChar}
    {maxlen : ℕ} (b : Buffer UInt8)
    (hunits : ∀ k (hk : k < units.length), pwcs k = units[k])
    (hnonzero : ∀ u ∈ units, u ≠ 0) (hend : pwcs units.length = 0) :
    unicodeStringToUtf8String b pwcs maxlen =
      (b.writeFrom 0 (utf8Within maxlen units), (utf8Within maxlen units).length) := by
  unfold unicodeStringToUtf8String
  have hunits' : ∀ k (hk : k < units.length), pwcs (0 + k) = units[k] := by
    simpa using hunits
  rw [unicodeStringLoop_eq le_rfl hunits' hnonzero (by simpa using hend)]
  simp

theorem utf8Within_length_le (budget : ℕ) (units : List UniChar) :
    (utf8Within budget units).length ≤ budget := by
  induction units generalizing budget with
  | nil => simp [utf8Within]
  | cons u us ih =>
      unfold utf8Within
      split_ifs with hzero hfits
      · simp
      · have := ih (budget - (utf8Encode u).length)
        rw [List.length_append]
        omega
      · have := ih (budget - 1)
        omega

theorem utf8Within_ascii {units : List UniChar} (hascii : ∀ u ∈ units, u ≤ 0x7f)
    {budget : ℕ} (hbudget : units.length ≤ budget) :
    utf8Within budget units = units.map UInt16.toUInt8 := by
  induction units generalizing budget with
  | nil => simp [utf8Within]
  | cons u us ih =>
      rw [List.length_cons] at hbudget
      have hu := utf8Encode_of_le (hascii u (by simp))
      have hzero : budget ≠ 0 := by omega
      rw [utf8Within, hu]
      simp only [hzero, if_false, List.length_singleton]
      rw [if_pos (by omega), ih (fun v hv => hascii v (by simp [hv])) (by omega)]
      rfl

theorem utf8Encode_ne_zero {u : UniChar} (hu : u ≠ 0) : ∀ b ∈ utf8Encode u, b ≠ 0 := by
  have hpos : u.toNat ≠ 0 := fun h => hu (UInt16.toNat_inj.mp h)
  unfold utf8Encode
  dsimp only
  split_ifs with h1 h2
  · simp only [List.mem_singleton, forall_eq]
    intro hzero
    have hnat := congrArg UInt8.toNat hzero
    simp at hnat
    omega
  · simp
  · simp

theorem utf8Within_ne_zero {units : List UniChar} (hnonzero : ∀ u ∈ units, u ≠ 0)
    (budget : ℕ) : ∀ b ∈ utf8Within budget units, b ≠ 0 := by
  induction units generalizing budget with
  | nil => simp [utf8Within]
  | cons u us ih =>
      have htail : ∀ v ∈ us, v ≠ 0 := fun v hv => hnonzero v (by simp [hv])
      unfold utf8Within
      split_ifs
      · simp
      · intro b hb
        rcases List.mem_append.mp hb with hhead | hrest
        · exact utf8Encode_ne_zero (hnonzero u (by simp)) b hhead
        · exact ih htail _ b hrest
      · exact ih htail _

/-! ## Reading the bytes back -/

theorem utf8Encode_eq (u : UniChar) :
    utf8Encode u =
      if u.toNat ≤ 0x7F then [.ofNat u.toNat]
      else if u.toNat ≤ 0x7FF then
        [.ofNat (0xC0 + u.toNat / 64), .ofNat (0x80 + u.toNat % 64)]
      else [.ofNat (0xE0 + u.toNat / 4096), .ofNat (0x80 + u.toNat / 64 % 64),
        .ofNat (0x80 + u.toNat % 64)] := by
  have hmax : u.toNat ≤ 0xFFFF := Nat.le_of_lt_succ u.toNat_lt
  have hlow : ∀ l : ℕ, 0x80 ||| (l &&& 0x3F) = 0x80 + l % 64 := by
    intro l
    have hmod : l &&& 0x3F = l % 64 := Nat.and_two_pow_sub_one_eq_mod l 6
    have hlt : l % 64 < 2 ^ 7 := by omega
    rw [hmod]
    exact (Nat.two_pow_add_eq_or_of_lt hlt 1).symm
  unfold utf8Encode
  simp only [hlow, Nat.shiftRight_eq_div_pow]
  by_cases h1 : u.toNat ≤ 0x7F
  · simp only [h1, if_true]
  · by_cases h2 : u.toNat ≤ 0x7FF
    · have hlead : 0xC0 ||| (u.toNat / 2 ^ 6) = 0xC0 + u.toNat / 64 :=
        (Nat.two_pow_add_eq_or_of_lt (i := 6) (by omega) 3).symm
      simp only [h1, h2, if_true, if_false, hlead]
    · have hlead : 0xE0 ||| (u.toNat / 2 ^ 12) = 0xE0 + u.toNat / 4096 :=
        (Nat.two_pow_add_eq_or_of_lt (i := 4) (by omega) 14).symm
      simp only [h1, h2, if_false, hlead]

/-- A unit that is no surrogate is a character, and its bytes are those of the
standard encoding of that character. -/
theorem utf8Encode_eq_utf8EncodeChar {c : Char} {u : UniChar} (hchar : c.toNat = u.toNat) :
    utf8Encode u = String.utf8EncodeChar c := by
  have hmax : u.toNat ≤ 0xFFFF := Nat.le_of_lt_succ u.toNat_lt
  have hval : c.val.toNat = u.toNat := hchar
  rw [utf8Encode_eq]
  unfold String.utf8EncodeChar
  simp only [hval]
  by_cases h1 : u.toNat ≤ 0x7F
  · simp only [h1, if_true]
  · by_cases h2 : u.toNat ≤ 0x7FF
    · have hlead : u.toNat / 64 % 32 = u.toNat / 64 := by omega
      simp only [h1, h2, if_true, if_false, hlead, Nat.add_comm]
    · have hlead : u.toNat / 4096 % 16 = u.toNat / 4096 := by omega
      simp only [h1, h2, hmax, if_true, if_false, hlead, Nat.add_comm]

def utf8Trailing (b : UInt8) : Prop := 0x80 ≤ b.toNat ∧ b.toNat < 0xC0

instance (b : UInt8) : Decidable (utf8Trailing b) := inferInstanceAs (Decidable (_ ∧ _))

/-- The decoder of sequences of one to three bytes: `none` for a byte out of
place, a sequence cut short and one longer than its character needs. -/
def utf8Decode : List UInt8 → Option (List UniChar)
  | [] => some []
  | b :: bs =>
      if b.toNat < 0x80 then (utf8Decode bs).map (.ofNat b.toNat :: ·)
      else match bs with
        | [] => none
        | c :: bs =>
            if 0xC2 ≤ b.toNat ∧ b.toNat < 0xE0 ∧ utf8Trailing c then
              (utf8Decode bs).map
                (.ofNat ((b.toNat - 0xC0) * 64 + (c.toNat - 0x80)) :: ·)
            else match bs with
              | [] => none
              | d :: bs =>
                  let l := (b.toNat - 0xE0) * 4096 + (c.toNat - 0x80) * 64 + (d.toNat - 0x80)
                  if 0xE0 ≤ b.toNat ∧ b.toNat < 0xF0 ∧ utf8Trailing c ∧ utf8Trailing d ∧
                      0x800 ≤ l then
                    (utf8Decode bs).map (.ofNat l :: ·)
                  else none

theorem utf8Decode_encode_append (u : UniChar) (bs : List UInt8) :
    utf8Decode (utf8Encode u ++ bs) = (utf8Decode bs).map (u :: ·) := by
  have hmax : u.toNat ≤ 0xFFFF := Nat.le_of_lt_succ u.toNat_lt
  have hbyte : ∀ l : ℕ, l < 256 → (UInt8.ofNat l).toNat = l :=
    fun l hl => UInt8.toNat_ofNat_of_lt hl
  rw [utf8Encode_eq]
  by_cases h1 : u.toNat ≤ 0x7F
  · rw [if_pos h1, List.cons_append, List.nil_append, utf8Decode.eq_def]
    simp only [hbyte u.toNat (by omega)]
    rw [if_pos (by omega), UInt16.ofNat_toNat]
  · rw [if_neg h1]
    by_cases h2 : u.toNat ≤ 0x7FF
    · have hchar : (0xC0 + u.toNat / 64 - 0xC0) * 64 + (0x80 + u.toNat % 64 - 0x80) =
          u.toNat := by omega
      rw [if_pos h2, List.cons_append, List.cons_append, List.nil_append,
        utf8Decode.eq_def]
      simp only [utf8Trailing, hbyte (0xC0 + u.toNat / 64) (by omega),
        hbyte (0x80 + u.toNat % 64) (by omega), hchar]
      rw [if_neg (by omega), if_pos (by omega), UInt16.ofNat_toNat]
    · have hchar : (0xE0 + u.toNat / 4096 - 0xE0) * 4096 +
          (0x80 + u.toNat / 64 % 64 - 0x80) * 64 + (0x80 + u.toNat % 64 - 0x80) =
            u.toNat := by omega
      rw [if_neg h2, List.cons_append, List.cons_append, List.cons_append, List.nil_append,
        utf8Decode.eq_def]
      simp only [utf8Trailing, hbyte (0xE0 + u.toNat / 4096) (by omega),
        hbyte (0x80 + u.toNat / 64 % 64) (by omega), hbyte (0x80 + u.toNat % 64) (by omega),
        hchar]
      rw [if_neg (by omega), if_neg (by omega), if_pos (by omega), UInt16.ofNat_toNat]

theorem utf8Decode_encode (units : List UniChar) :
    utf8Decode (units.flatMap utf8Encode) = some units := by
  induction units with
  | nil => rfl
  | cons u us ih =>
      rw [List.flatMap_cons, utf8Decode_encode_append, ih]
      rfl

theorem utf8Within_sublist (budget : ℕ) (units : List UniChar) :
    ∃ kept : List UniChar, kept.Sublist units ∧
      utf8Within budget units = kept.flatMap utf8Encode := by
  induction units generalizing budget with
  | nil => exact ⟨[], List.Sublist.slnil, rfl⟩
  | cons u us ih =>
      unfold utf8Within
      split_ifs with hzero hfits
      · exact ⟨[], List.nil_sublist _, rfl⟩
      · obtain ⟨kept, hkept, heq⟩ := ih (budget - (utf8Encode u).length)
        exact ⟨u :: kept, hkept.cons_cons u, by rw [heq, List.flatMap_cons]⟩
      · obtain ⟨kept, hkept, heq⟩ := ih (budget - 1)
        exact ⟨kept, hkept.cons u, heq⟩

theorem utf8Within_of_fits {units : List UniChar} {budget : ℕ}
    (hfits : (units.flatMap utf8Encode).length ≤ budget) :
    utf8Within budget units = units.flatMap utf8Encode := by
  induction units generalizing budget with
  | nil => simp [utf8Within]
  | cons u us ih =>
      have hpos := utf8Encode_length_pos u
      rw [List.flatMap_cons, List.length_append] at hfits
      rw [utf8Within, if_neg (by omega), if_pos (by omega), ih (by omega), List.flatMap_cons]

/-- The bytes of a conversion are the first ones of the buffer, as many as it
returns. -/
def convertedBytes (r : Buffer UInt8 × ℕ) : List UInt8 := r.1.read 0 r.2

theorem utf8Encode_flatMap_injective {units units' : List UniChar}
    (heq : units.flatMap utf8Encode = units'.flatMap utf8Encode) : units = units' := by
  have hdecode := utf8Decode_encode units
  rw [heq, utf8Decode_encode] at hdecode
  exact (Option.some.inj hdecode).symm

/-- A character that does not fit is left out whole, and none is when all fit. -/
theorem unicodeStringToUtf8String_kept {pwcs : ℕ → UniChar} {units : List UniChar}
    (b : Buffer UInt8) (maxlen : ℕ)
    (hunits : ∀ k (hk : k < units.length), pwcs k = units[k])
    (hnonzero : ∀ u ∈ units, u ≠ 0) (hend : pwcs units.length = 0) :
    ∃ kept : List UniChar, kept.Sublist units ∧
      unicodeStringToUtf8String b pwcs maxlen =
        (b.writeFrom 0 (kept.flatMap utf8Encode), (kept.flatMap utf8Encode).length) ∧
      convertedBytes (unicodeStringToUtf8String b pwcs maxlen) = kept.flatMap utf8Encode ∧
      (kept.flatMap utf8Encode).length ≤ maxlen ∧
      ((units.flatMap utf8Encode).length ≤ maxlen → kept = units ∧
        utf8Decode (convertedBytes (unicodeStringToUtf8String b pwcs maxlen)) = some units) := by
  obtain ⟨kept, hkept, hwithin⟩ := utf8Within_sublist maxlen units
  have heq : unicodeStringToUtf8String b pwcs maxlen =
      (b.writeFrom 0 (kept.flatMap utf8Encode), (kept.flatMap utf8Encode).length) := by
    rw [unicodeStringToUtf8String_eq b hunits hnonzero hend, hwithin]
  have hbytes : convertedBytes (unicodeStringToUtf8String b pwcs maxlen) =
      kept.flatMap utf8Encode := by
    unfold convertedBytes
    rw [heq, Buffer.read_writeFrom rfl]
  refine ⟨kept, hkept, heq, hbytes, ?_, ?_⟩
  · rw [← hwithin]
    exact utf8Within_length_le maxlen units
  · intro hfits
    rw [utf8Within_of_fits hfits] at hwithin
    rw [hbytes, utf8Encode_flatMap_injective hwithin]
    exact ⟨rfl, utf8Decode_encode kept⟩

theorem unicodeStringToUtf8String_kept_latin :
    utf8Decode (convertedBytes (unicodeStringToUtf8String (.fresh fun _ => 0)
      (fun k => [0xE9, 0x61].getD k 0) 3)) = some [0xE9, 0x61] := by
  have hunits : ∀ k (hk : k < 2), ([0xE9, 0x61] : List UniChar).getD k 0 =
      ([0xE9, 0x61] : List UniChar)[k] := by
    intro k hk
    interval_cases k <;> rfl
  obtain ⟨kept, _, _, _, _, hall⟩ := @unicodeStringToUtf8String_kept
    (fun k => [0xE9, 0x61].getD k 0) [0xE9, 0x61] (.fresh fun _ => 0) 3 hunits (by simp) rfl
  exact (hall (by decide)).2

end JfsReader
