import PathForms.Proofs.BufferGrowth
import PathForms.Text.Unit

/-!
# Text in 16-bit units and back

A text is written in 16-bit units as single units and pairs of surrogates, and reading undoes
writing. Reading loses nothing but surrogates outside a pair, so a run of units is what its text is
written in if and only if it has no such surrogate. A text takes no more 16-bit units than octets;
a buffer with room for as many units as the text has octets is filled unit by unit without growing.
-/

set_option autoImplicit false

namespace PathForms

namespace Text.Utf16

/-- A surrogate outside a pair: a high one with no low one right after it, or a low one with no high
one right before it. -/
def HasLoneSurrogate (units : List UInt16) : Prop :=
  ∃ before unit after, units = before ++ unit :: after ∧
    (isHigh unit = true ∧ after.head?.any isLow = false ∨
      isLow unit = true ∧ before.getLast?.any isHigh = false)

inductive Paired : List UInt16 → Prop
  | nil : Paired []
  | single {unit : UInt16} {rest : List UInt16} (hh : isHigh unit = false)
      (hl : isLow unit = false) (h : Paired rest) : Paired (unit :: rest)
  | pair {high low : UInt16} {rest : List UInt16} (hh : isHigh high = true)
      (hl : isLow low = true) (h : Paired rest) : Paired (high :: low :: rest)

variable {unit high low : UInt16} {front rest units : List UInt16}

theorem not_isLow_of_isHigh (h : isHigh unit = true) : isLow unit = false := by
  simp only [isHigh, isLow, decide_eq_true_eq, decide_eq_false_iff_not] at h ⊢
  omega

theorem not_isHigh_of_isLow (h : isLow unit = true) : isHigh unit = false := by
  simp only [isHigh, isLow, decide_eq_true_eq, decide_eq_false_iff_not] at h ⊢
  omega

theorem HasLoneSurrogate.append (hf : front.getLast?.any isHigh = false)
    (h : HasLoneSurrogate rest) : HasLoneSurrogate (front ++ rest) := by
  obtain ⟨before, lone, after, rfl, hlone⟩ := h
  refine ⟨front ++ before, lone, after, by simp, hlone.imp_right fun ⟨hl, hb⟩ => ⟨hl, ?_⟩⟩
  rw [List.getLast?_append]
  cases hlast : before.getLast? with
  | none => simpa using hf
  | some a => simpa [hlast] using hb

theorem HasLoneSurrogate.of_single (hh : isHigh unit = false) (hl : isLow unit = false)
    (h : HasLoneSurrogate (unit :: rest)) : HasLoneSurrogate rest := by
  obtain ⟨before, lone, after, he, hlone⟩ := h
  cases before with
  | nil =>
    cases he
    simp [hh, hl] at hlone
  | cons a before =>
    cases he
    refine ⟨before, lone, after, rfl, hlone.imp_right fun ⟨hl', hb⟩ => ⟨hl', ?_⟩⟩
    cases before with
    | nil => rfl
    | cons => simpa [List.getLast?_cons] using hb

theorem HasLoneSurrogate.of_pair (hh : isHigh high = true) (hl : isLow low = true)
    (h : HasLoneSurrogate (high :: low :: rest)) : HasLoneSurrogate rest := by
  obtain ⟨before, lone, after, he, hlone⟩ := h
  match before with
  | [] =>
    cases he
    simp [hl, not_isLow_of_isHigh hh] at hlone
  | [a] =>
    cases he
    simp [hh, not_isHigh_of_isLow hl] at hlone
  | a :: b :: before =>
    cases he
    refine ⟨before, lone, after, rfl, hlone.imp_right fun ⟨hl', hb⟩ => ⟨hl', ?_⟩⟩
    cases before with
    | nil => rfl
    | cons => simpa [List.getLast?_cons] using hb

theorem Paired.not_hasLoneSurrogate (h : Paired units) : ¬ HasLoneSurrogate units := by
  induction h with
  | nil =>
    rintro ⟨before, lone, after, he, -⟩
    simp at he
  | single hh hl _ ih => exact fun h => ih (h.of_single hh hl)
  | pair hh hl _ ih => exact fun h => ih (h.of_pair hh hl)

theorem hasLoneSurrogate_cons_of_isHigh (hh : isHigh high = true)
    (hr : rest.head?.any isLow = false) : HasLoneSurrogate (high :: rest) :=
  ⟨[], high, rest, rfl, .inl ⟨hh, hr⟩⟩

theorem paired_of_not_hasLoneSurrogate :
    ∀ units : List UInt16, ¬ HasLoneSurrogate units → Paired units
  | [], _ => .nil
  | unit :: rest, h => by
    have hl : isLow unit = false := by
      rw [← Bool.not_eq_true]
      exact fun hl => h ⟨[], unit, rest, rfl, .inr ⟨hl, rfl⟩⟩
    by_cases hh : isHigh unit = true
    · match rest, h with
      | [], h => exact absurd (hasLoneSurrogate_cons_of_isHigh hh rfl) h
      | low :: rest, h =>
        by_cases hl' : isLow low = true
        · refine .pair hh hl' (paired_of_not_hasLoneSurrogate rest fun hr => h ?_)
          exact hr.append (show [unit, low].getLast?.any isHigh = false from
            not_isHigh_of_isLow hl')
        · exact absurd (hasLoneSurrogate_cons_of_isHigh hh (by simpa using hl')) h
    · rw [Bool.not_eq_true] at hh
      refine .single hh hl (paired_of_not_hasLoneSurrogate rest fun hr => h ?_)
      exact hr.append (show [unit].getLast?.any isHigh = false from hh)

theorem paired_iff : Paired units ↔ ¬ HasLoneSurrogate units :=
  ⟨Paired.not_hasLoneSurrogate, paired_of_not_hasLoneSurrogate units⟩

theorem toNat_lt (c : Char) : c.toNat < 0xD800 ∨ 0xDFFF < c.toNat ∧ c.toNat < 0x110000 := c.valid

theorem decodeFrom_single (hh : isHigh unit = false) (hl : isLow unit = false) :
    decodeFrom none (unit :: rest) = Char.ofNat unit.toNat :: decodeFrom none rest := by
  simp [decodeFrom, start, hh, hl]

theorem decodeFrom_pair (hh : isHigh high = true) (hl : isLow low = true) :
    decodeFrom none (high :: low :: rest) = paired high low :: decodeFrom none rest := by
  simp [decodeFrom, start, step, hh, hl]

theorem encodeChar_cases (c : Char) :
    (∃ unit, encodeChar c = [unit] ∧ isHigh unit = false ∧ isLow unit = false ∧
      Char.ofNat unit.toNat = c) ∨
    ∃ high low, encodeChar c = [high, low] ∧ isHigh high = true ∧ isLow low = true ∧
      paired high low = c := by
  have hc := toNat_lt c
  by_cases h : c.toNat < 0x10000
  · have hn : (UInt16.ofNat c.toNat).toNat = c.toNat :=
      UInt16.toNat_ofNat_of_lt' h
    refine .inl ⟨UInt16.ofNat c.toNat, if_pos h, ?_, ?_, ?_⟩
    · simp only [isHigh, hn, decide_eq_false_iff_not]
      omega
    · simp only [isLow, hn, decide_eq_false_iff_not]
      omega
    · rw [hn, Char.ofNat_toNat]
  · have hhigh : (UInt16.ofNat (0xD800 + (c.toNat - 0x10000) / 0x400)).toNat =
        0xD800 + (c.toNat - 0x10000) / 0x400 :=
      UInt16.toNat_ofNat_of_lt' (show _ < 0x10000 by omega)
    have hlow : (UInt16.ofNat (0xDC00 + (c.toNat - 0x10000) % 0x400)).toNat =
        0xDC00 + (c.toNat - 0x10000) % 0x400 :=
      UInt16.toNat_ofNat_of_lt' (show _ < 0x10000 by omega)
    refine .inr ⟨_, _, if_neg h, ?_, ?_, ?_⟩
    · simp only [isHigh, hhigh, decide_eq_true_eq]
      omega
    · simp only [isLow, hlow, decide_eq_true_eq]
      omega
    · have hback : 0x10000 + (0xD800 + (c.toNat - 0x10000) / 0x400 - 0xD800) * 0x400 +
          (0xDC00 + (c.toNat - 0x10000) % 0x400 - 0xDC00) = c.toNat := by omega
      rw [paired, hhigh, hlow, hback, Char.ofNat_toNat]

theorem encode_cons (c : Char) (text : List Char) :
    encode (c :: text) = encodeChar c ++ encode text := rfl

theorem decode_encode (text : List Char) : decode (encode text) = text := by
  induction text with
  | nil => rfl
  | cons c text ih =>
    rw [decode] at ih ⊢
    rw [encode_cons]
    rcases encodeChar_cases c with ⟨unit, he, hh, hl, hc⟩ | ⟨high, low, he, hh, hl, hc⟩
    · rw [he, List.singleton_append, decodeFrom_single hh hl, ih, hc]
    · rw [he, List.cons_append, List.singleton_append, decodeFrom_pair hh hl, ih, hc]

theorem paired_encode (text : List Char) : Paired (encode text) := by
  induction text with
  | nil => exact .nil
  | cons c text ih =>
    rw [encode_cons]
    rcases encodeChar_cases c with ⟨unit, he, hh, hl, -⟩ | ⟨high, low, he, hh, hl, -⟩
    · rw [he]
      exact .single hh hl ih
    · rw [he]
      exact .pair hh hl ih

theorem toNat_char {n : Nat} (h : n < 0xD800 ∨ 0xDFFF < n ∧ n < 0x110000) :
    (Char.ofNat n).toNat = n := by
  rw [Char.ofNat, dif_pos (show n.isValidChar from h)]
  rfl

theorem encodeChar_of_single (hh : isHigh unit = false) (hl : isLow unit = false) :
    encodeChar (Char.ofNat unit.toNat) = [unit] := by
  have hlt := unit.toNat_lt
  simp only [isHigh, isLow, decide_eq_false_iff_not] at hh hl
  rw [encodeChar, toNat_char (by omega), if_pos hlt, UInt16.ofNat_toNat]

theorem toNat_paired (hh : isHigh high = true) (hl : isLow low = true) :
    (paired high low).toNat = 0x10000 + (high.toNat - 0xD800) * 0x400 + (low.toNat - 0xDC00) := by
  simp only [isHigh, isLow, decide_eq_true_eq] at hh hl
  exact toNat_char (by omega)

theorem encodeChar_of_pair (hh : isHigh high = true) (hl : isLow low = true) :
    encodeChar (paired high low) = [high, low] := by
  have hc := toNat_paired hh hl
  simp only [isHigh, isLow, decide_eq_true_eq] at hh hl
  have hhigh : 0xD800 + ((paired high low).toNat - 0x10000) / 0x400 = high.toNat := by omega
  have hlow : 0xDC00 + ((paired high low).toNat - 0x10000) % 0x400 = low.toNat := by omega
  rw [encodeChar, if_neg (by omega)]
  dsimp only
  rw [hhigh, hlow, UInt16.ofNat_toNat, UInt16.ofNat_toNat]

theorem Paired.encode_decode (h : Paired units) : encode (decode units) = units := by
  induction h with
  | nil => rfl
  | single hh hl _ ih =>
    rw [decode] at ih ⊢
    rw [decodeFrom_single hh hl, encode_cons, ih, encodeChar_of_single hh hl]
    rfl
  | pair hh hl _ ih =>
    rw [decode] at ih ⊢
    rw [decodeFrom_pair hh hl, encode_cons, ih, encodeChar_of_pair hh hl]
    rfl

/-- Writing undoes reading on the runs without a lone surrogate, and on no others. -/
theorem encode_decode_iff : encode (decode units) = units ↔ ¬ HasLoneSurrogate units := by
  rw [← paired_iff]
  constructor
  · intro h
    rw [← h]
    exact paired_encode _
  · exact Paired.encode_decode

theorem length_encodeChar_le (c : Char) : (encodeChar c).length ≤ c.utf8Size := by
  have hpos := c.utf8Size_pos
  by_cases h : c.toNat < 0x10000
  · rw [encodeChar, if_pos h]
    exact hpos
  · have hsize : c.utf8Size = 4 := by
      rw [Char.utf8Size_eq_four_iff, UInt32.lt_iff_toNat_lt]
      exact Nat.le_of_not_lt h
    rw [encodeChar, if_neg h, hsize]
    exact (by decide : 2 ≤ 4)

theorem length_encode_le (text : List Char) : (encode text).length ≤ Utf8.size text := by
  induction text with
  | nil => exact Nat.le_refl 0
  | cons c text ih =>
    have hc := length_encodeChar_le c
    rw [encode_cons, List.length_append, Utf8.size]
    omega

end Text.Utf16

namespace Buffer

variable {α : Type} [CodeUnit α] {b : Buffer α}

theorem push_of_lt {a : α} (h : b.length + 1 < b.storage.size) : b.push a = .ok (b.write [a]) := by
  rw [push, reserve_of_le h]
  rfl

theorem write_write {xs ys : List α} (h : b.length + xs.length < b.storage.size) :
    (b.write xs).write ys = b.write (xs ++ ys) := by
  have hfront : (b.storage.slots.take b.length ++ xs).length = b.length + xs.length := by
    have hs : b.storage.size = b.storage.slots.length := rfl
    rw [List.length_append, List.length_take]
    omega
  have htake : (b.storage.slots.take b.length ++ xs ++
      CodeUnit.nul :: b.storage.slots.drop (b.length + xs.length + 1)).take
        (b.length + xs.length) = b.storage.slots.take b.length ++ xs := List.take_left' hfront
  have hdrop : (b.storage.slots.take b.length ++ xs ++
      CodeUnit.nul :: b.storage.slots.drop (b.length + xs.length + 1)).drop
        (b.length + xs.length + ys.length + 1) =
      b.storage.slots.drop (b.length + (xs.length + ys.length) + 1) := by
    rw [List.drop_append, List.drop_eq_nil_of_le (by omega), hfront, List.nil_append,
      show b.length + xs.length + ys.length + 1 - (b.length + xs.length) = ys.length + 1 by omega,
      List.drop_succ_cons, List.drop_drop,
      show b.length + xs.length + 1 + ys.length = b.length + (xs.length + ys.length) + 1 by omega]
  simp only [write]
  rw [htake, hdrop]
  simp only [List.length_append, List.append_assoc, Nat.add_assoc]

theorem foldlM_push {xs : List α} (h : b.length + xs.length < b.storage.size) :
    xs.foldlM (fun c a => c.push a) b = b.extend xs := by
  induction xs generalizing b with
  | nil => rfl
  | cons a xs ih =>
    rw [List.length_cons] at h
    have hroom : (b.write [a]).length + xs.length < (b.write [a]).storage.size := by
      rw [size_write (by rw [List.length_singleton]; omega)]
      show b.length + 1 + xs.length < _
      omega
    rw [List.foldlM_cons, push_of_lt (by omega), extend_cons (by omega)]
    show xs.foldlM (fun c a => c.push a) (b.write [a]) = _
    rw [ih hroom]
    cases xs with
    | nil => rfl
    | cons c xs =>
      rw [extend_cons (by rw [List.length_cons] at hroom; omega), write_write (by
        rw [List.length_singleton]; omega), List.singleton_append]

/-- Units that are pushed one by one find the room that each of them needs. -/
def FillsInPlace (b : Buffer α) (xs : List α) : Prop :=
  ∀ done a rest, xs = done ++ a :: rest →
    ∃ c, done.foldlM (fun c a => c.push a) b = .ok c ∧ c.reserve 1 = .ok c

theorem fillsInPlace_of_lt {xs : List α} (h : b.length + xs.length < b.storage.size) :
    b.FillsInPlace xs := by
  rintro done a rest rfl
  rw [List.length_append, List.length_cons] at h
  rw [foldlM_push (by omega)]
  cases done with
  | nil => exact ⟨b, rfl, reserve_of_le (by omega)⟩
  | cons c done =>
    rw [List.length_cons] at h
    refine ⟨_, extend_cons (by omega), reserve_of_le ?_⟩
    rw [size_write (by rw [List.length_cons]; omega)]
    show b.length + (done.length + 1) + 1 + 1 ≤ _
    omega

theorem room_withCapacity {n : Nat} (h : withCapacity n = .ok b) :
    b.length = 0 ∧ b.storage.size = n + 1 := by
  obtain ⟨s, hs, hb⟩ := bind_eq_ok.1 h
  cases hb
  rw [Storage.eq_resized_of_realloc hs, Storage.size_resized]
  exact ⟨rfl, rfl⟩

end Buffer

open Text

/-- Octets put into 16-bit units show the text that they show as they are. The buffer that they are
put into has room for as many units as that text has octets, no more and no less, and is filled unit
by unit without growing; it is refused if it would be too large an object. And a run of 16-bit units
is what its text is written in if and only if no surrogate in it is alone. -/
theorem decode_ofOctets (octets : List UInt8) :
    (if maxOctets < (Utf8.size (TextUnit.decode octets) + 1) * CodeUnit.width UInt16 then
        (TextUnit.ofOctets octets : Except BufferError (Buffer UInt16)) = .error .capacityOverflow
      else ∃ room b : Buffer UInt16,
        Buffer.withCapacity (Utf8.size (TextUnit.decode octets)) = .ok room ∧
        room.FillsInPlace (Utf16.encode (TextUnit.decode octets)) ∧
        (Utf16.encode (TextUnit.decode octets)).foldlM (fun c a => c.push a) room = .ok b ∧
        TextUnit.ofOctets octets = .ok b ∧
        b.capacity = Utf8.size (TextUnit.decode octets) ∧
        TextUnit.decode b.contents = TextUnit.decode octets) ∧
    ∀ units : List UInt16,
      Utf16.encode (TextUnit.decode units) = units ↔ ¬ Utf16.HasLoneSurrogate units := by
  refine ⟨?_, fun units => Utf16.encode_decode_iff⟩
  have hwide : (TextUnit.ofOctets octets : Except BufferError (Buffer UInt16)) =
      (Buffer.withCapacity (Utf8.size (TextUnit.decode octets))) >>= fun room =>
        room.extend (Utf16.encode (TextUnit.decode octets)) := rfl
  rw [hwide]
  generalize TextUnit.decode octets = text
  cases hroom : (Buffer.withCapacity (Utf8.size text) : Except BufferError (Buffer UInt16)) with
  | error e =>
    obtain ⟨rfl, hlt⟩ := Buffer.withCapacity_eq_error_iff.1 hroom
    rw [if_pos hlt]
    rfl
  | ok room =>
    have hle : ¬ maxOctets < (Utf8.size text + 1) * CodeUnit.width UInt16 := by
      intro hlt
      rw [Buffer.withCapacity_eq_error_iff.2 ⟨rfl, hlt⟩] at hroom
      cases hroom
    obtain ⟨hlength, hsize⟩ := Buffer.room_withCapacity hroom
    have hroomy : room.length + (Utf16.encode text).length < room.storage.size := by
      have hlen := Utf16.length_encode_le text
      omega
    obtain ⟨b, hb, hbsize⟩ := Buffer.exists_extend_eq hroomy
    have hheld := (Buffer.holds_withCapacity hroom).extend hb
    rw [if_neg hle]
    refine ⟨room, b, rfl, Buffer.fillsInPlace_of_lt hroomy, ?_, hb, ?_, ?_⟩
    · rw [Buffer.foldlM_push hroomy, hb]
    · rw [Buffer.capacity, hbsize, hsize, Nat.add_sub_cancel]
    · rw [hheld.contents_eq, List.nil_append]
      exact Utf16.decode_encode text

end PathForms
