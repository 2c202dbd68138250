/-
  The written form of a key (`ofHex_grammar`).

  A key is written with two digits for each byte, the high one first, each in
  either case (`digits`), and with blanks anywhere, also between the two digits
  of a byte (`Spaced`).  What is read is what can be written so, and it is read
  as the key it was written for (`ofHex_eq_ok_iff_spaced`); there is one error for
  all other texts.
-/
import Mathlib.Data.List.Forall2
import Mathlib.Data.List.GetD
import ObliviousStore.SecretKey
import ObliviousStore.TextFile

namespace ObliviousStore

/-! ## Blanks -/

namespace Text

/-- The characters of a text that are not blank. -/
def visible (s : String) : List Char := s.toList.filter fun c => !isBlank c

/-- A text in which blanks are put between other characters, before and behind them. -/
inductive Spaced : List Char → List Char → Prop
  | nil : Spaced [] []
  | blank {c cs text} : isBlank c → Spaced cs text → Spaced cs (c :: text)
  | visible {c cs text} : Spaced cs text → Spaced (c :: cs) (c :: text)

theorem Spaced.filter_eq {cs text : List Char} (h : Spaced cs text)
    (hcs : ∀ c ∈ cs, isBlank c = false) : (text.filter fun c => !isBlank c) = cs := by
  induction h with
  | nil => rfl
  | blank hc _ ih => rw [List.filter_cons_of_neg (by simp [hc]), ih hcs]
  | visible _ ih =>
    obtain ⟨hc, hrest⟩ := List.forall_mem_cons.1 hcs
    rw [List.filter_cons_of_pos (by simp [hc]), ih hrest]

theorem spaced_filter (text : List Char) : Spaced (text.filter fun c => !isBlank c) text := by
  induction text with
  | nil => exact .nil
  | cons c text ih =>
    cases hc : isBlank c with
    | true =>
      rw [List.filter_cons_of_neg (by simp [hc])]
      exact .blank hc ih
    | false =>
      rw [List.filter_cons_of_pos (by simp [hc])]
      exact .visible ih

/-- The blanks of a text can be taken out, and put in again. -/
theorem spaced_iff {cs : List Char} {s : String} (hcs : ∀ c ∈ cs, isBlank c = false) :
    Spaced cs s.toList ↔ visible s = cs := by
  constructor
  · exact fun h => h.filter_eq hcs
  · rintro rfl
    exact spaced_filter s.toList

end Text

namespace SecretKey

open Text

/-! ## Digits -/

/-- The digits of one case in the order of their values. -/
def hexDigits : (upper : Bool) → List Char
  | false => "0123456789abcdef".toList
  | true => "0123456789ABCDEF".toList

def hexDigit (upper : Bool) (value : Nat) : Char := (hexDigits upper).getD value '0'

def IsHexDigit (c : Char) : Prop := ∃ upper, c ∈ hexDigits upper

instance (c : Char) : Decidable (IsHexDigit c) := decidable_of_iff' _ Bool.exists_bool

/-- A digit in either case, with its value. -/
def IsDigitOf (value : Nat) (c : Char) : Prop := value < 16 ∧ ∃ upper, c = hexDigit upper value

theorem digit?_hexDigit : ∀ upper : Bool, ∀ v < 16, digit? (hexDigit upper v) = some v := by
  decide

theorem toLower_hexDigit :
    ∀ upper : Bool, ∀ v < 16, (hexDigit upper v).toLower = hexDigit false v := by
  decide

theorem isBlank_hexDigit : ∀ upper : Bool, ∀ v < 16, isBlank (hexDigit upper v) = false := by
  decide

theorem length_hexDigits : ∀ upper : Bool, (hexDigits upper).length = 16 := by decide

theorem mem_hexDigits_iff {upper : Bool} {c : Char} :
    c ∈ hexDigits upper ↔ ∃ v < 16, c = hexDigit upper v := by
  constructor
  · intro h
    obtain ⟨v, hv, rfl⟩ := List.mem_iff_getElem.1 h
    rw [length_hexDigits] at hv
    exact ⟨v, hv, (List.getD_eq_getElem ..).symm⟩
  · rintro ⟨v, hv, rfl⟩
    rw [hexDigit, List.getD_eq_getElem _ _ (by rwa [length_hexDigits])]
    exact List.getElem_mem _

theorem isHexDigit_iff {c : Char} : IsHexDigit c ↔ ∃ v, IsDigitOf v c := by
  constructor
  · rintro ⟨upper, hc⟩
    obtain ⟨v, hv, rfl⟩ := mem_hexDigits_iff.1 hc
    exact ⟨v, hv, upper, rfl⟩
  · rintro ⟨v, hv, upper, rfl⟩
    exact ⟨upper, mem_hexDigits_iff.2 ⟨v, hv, rfl⟩⟩

theorem toNat_lt_of_digit? {c : Char} {v : Nat} (h : digit? c = some v) : c.toNat < 128 := by
  have hlt {last : Char} (hc : c ≤ last) (hlast : last.toNat < 128) : c.toNat < 128 :=
    Nat.lt_of_le_of_lt (UInt32.le_iff_toNat_le.1 hc) hlast
  unfold digit? at h
  split_ifs at h with hdecimal hlower hupper
  · exact hlt hdecimal.2 (by decide)
  · exact hlt hlower.2 (by decide)
  · exact hlt hupper.2 (by decide)

theorem isDigitOf_of_digit?_ofNat :
    ∀ n < 128, ∀ v ∈ digit? (Char.ofNat n),
      v < 16 ∧ ∃ upper, Char.ofNat n = hexDigit upper v := by
  decide

/-- The value that is read is the place of a digit in its row. -/
theorem digit?_eq_some_iff {c : Char} {v : Nat} : digit? c = some v ↔ IsDigitOf v c := by
  constructor
  · intro h
    have hdigit := isDigitOf_of_digit?_ofNat c.toNat (toNat_lt_of_digit? h) v
    rw [Char.ofNat_toNat] at hdigit
    exact hdigit h
  · rintro ⟨hv, upper, rfl⟩
    exact digit?_hexDigit upper v hv

/-! ## Rows of digits -/

/-- The values of the two digits of a byte. -/
def halves (b : UInt8) : List Nat := [b.toNat / 16, b.toNat % 16]

/-- The digits of a row of values, the `i`-th in the case `upper i`. -/
def writeDigits (upper : Nat → Bool) : List Nat → List Char
  | [] => []
  | v :: values => hexDigit (upper 0) v :: writeDigits (fun i => upper (i + 1)) values

@[simp] theorem length_halves (b : UInt8) : (halves b).length = 2 := rfl

theorem lt_of_mem_halves {bytes : Bytes} : ∀ v ∈ bytes.flatMap halves, v < 16 := by
  intro v hv
  obtain ⟨b, -, hv⟩ := List.mem_flatMap.1 hv
  have hb := b.toNat_lt
  simp only [halves, List.mem_cons, List.not_mem_nil, or_false] at hv
  omega

theorem ofNat_eq_iff {high low : Nat} {b : UInt8} (hhigh : high < 16) (hlow : low < 16) :
    UInt8.ofNat (16 * high + low) = b ↔ high = b.toNat / 16 ∧ low = b.toNat % 16 := by
  have hb := b.toNat_lt
  rw [← UInt8.toNat_inj, UInt8.toNat_ofNat']
  omega

theorem forall₂_isDigitOf_iff {values : List Nat} {cs : List Char} (h : ∀ v ∈ values, v < 16) :
    List.Forall₂ IsDigitOf values cs ↔ ∃ upper, cs = writeDigits upper values := by
  constructor
  · intro hcs
    induction hcs with
    | nil => exact ⟨fun _ => false, rfl⟩
    | cons hc _ ih =>
      obtain ⟨-, first, rfl⟩ := hc
      obtain ⟨upper, rfl⟩ := ih fun v hv => h v (List.mem_cons_of_mem _ hv)
      exact ⟨fun i => i.casesOn first upper, rfl⟩
  · rintro ⟨upper, rfl⟩
    induction values generalizing upper with
    | nil => exact .nil
    | cons v values ih =>
      obtain ⟨hv, hvalues⟩ := List.forall_mem_cons.1 h
      exact .cons ⟨hv, upper 0, rfl⟩ (ih hvalues _)

theorem isHexDigit_of_forall₂ {values : List Nat} {cs : List Char}
    (h : List.Forall₂ IsDigitOf values cs) : ∀ c ∈ cs, IsHexDigit c := by
  induction h with
  | nil => simp
  | cons hc _ ih => exact List.forall_mem_cons.2 ⟨isHexDigit_iff.2 ⟨_, hc⟩, ih⟩

theorem map_toLower_writeDigits {values : List Nat} (h : ∀ v ∈ values, v < 16)
    (upper : Nat → Bool) :
    (writeDigits upper values).map Char.toLower = writeDigits (fun _ => false) values := by
  induction values generalizing upper with
  | nil => rfl
  | cons v values ih =>
    obtain ⟨hv, hvalues⟩ := List.forall_mem_cons.1 h
    rw [writeDigits, List.map_cons, toLower_hexDigit _ v hv, ih hvalues]
    rfl

/-- Digits are read in pairs, as the bytes they are written for. -/
theorem pairs?_eq_some_iff {cs : List Char} {bytes : Bytes} :
    pairs? cs = some bytes ↔ List.Forall₂ IsDigitOf (bytes.flatMap halves) cs := by
  -- one step of the reading takes the two digits of one byte, so both rows are taken apart at once
  fun_induction pairs? cs generalizing bytes with
  | case1 =>
    cases bytes with
    | nil => simp
    | cons b bytes => simp [halves]
  | case2 c =>
    cases bytes with
    | nil => simp
    | cons b bytes => simp [halves]
  | case3 high low rest ih =>
    cases bytes with
    | nil => simp [Option.bind_eq_some_iff]
    | cons b bytes =>
      have hwritten : (b :: bytes).flatMap halves =
          b.toNat / 16 :: b.toNat % 16 :: bytes.flatMap halves := rfl
      rw [hwritten, List.forall₂_cons, List.forall₂_cons, ← ih, ← digit?_eq_some_iff,
        ← digit?_eq_some_iff]
      simp only [Option.bind_eq_bind, Option.bind_eq_some_iff, Option.pure_def,
        Option.some.injEq, List.cons.injEq]
      constructor
      · rintro ⟨h, hh, l, hl, bytes', hrest, hb, rfl⟩
        obtain ⟨rfl, rfl⟩ :=
          (ofNat_eq_iff (digit?_eq_some_iff.1 hh).1 (digit?_eq_some_iff.1 hl).1).1 hb
        exact ⟨hh, hl, hrest⟩
      · rintro ⟨hh, hl, hrest⟩
        exact ⟨_, hh, _, hl, _, hrest,
          (ofNat_eq_iff (digit?_eq_some_iff.1 hh).1 (digit?_eq_some_iff.1 hl).1).2 ⟨rfl, rfl⟩, rfl⟩

/-- An even number of digits is read, whatever they are. -/
theorem exists_pairs? {cs : List Char} {n : Nat} (hlength : cs.length = 2 * n)
    (hcs : ∀ c ∈ cs, IsHexDigit c) :
    ∃ bytes : Bytes, pairs? cs = some bytes ∧ bytes.length = n := by
  induction n generalizing cs with
  | zero =>
    obtain rfl : cs = [] := List.length_eq_zero_iff.1 hlength
    exact ⟨[], rfl, rfl⟩
  | succ n ih =>
    match cs, hlength with
    | high :: low :: rest, hlength =>
      obtain ⟨hhigh, hcs⟩ := List.forall_mem_cons.1 hcs
      obtain ⟨hlow, hrest⟩ := List.forall_mem_cons.1 hcs
      obtain ⟨h, hh⟩ := isHexDigit_iff.1 hhigh
      obtain ⟨l, hl⟩ := isHexDigit_iff.1 hlow
      simp only [List.length_cons] at hlength
      obtain ⟨bytes, hbytes, hn⟩ := ih (by omega) hrest
      refine ⟨UInt8.ofNat (16 * h + l) :: bytes, ?_, by rw [List.length_cons, hn]⟩
      rw [pairs?, digit?_eq_some_iff.2 hh, digit?_eq_some_iff.2 hl, hbytes]
      rfl

/-! ## Keys -/

/-- The digits of a key, the `i`-th in the case `upper i`. -/
def digits (key : SecretKey) (upper : Nat → Bool) : List Char :=
  writeDigits upper (key.bytes.toList.flatMap halves)

variable {s t : String} {key key' : SecretKey}

theorem pairs?_eq_bytes_iff {cs : List Char} :
    pairs? cs = some key.bytes.toList ↔ ∃ upper, cs = key.digits upper := by
  rw [pairs?_eq_some_iff, forall₂_isDigitOf_iff lt_of_mem_halves]
  rfl

theorem pairs?_digits (key : SecretKey) (upper : Nat → Bool) :
    pairs? (key.digits upper) = some key.bytes.toList :=
  pairs?_eq_bytes_iff.2 ⟨upper, rfl⟩

theorem digits_injective {upper upper' : Nat → Bool} (h : key.digits upper = key'.digits upper') :
    key = key' := by
  have hbytes := pairs?_digits key upper
  rw [h, pairs?_digits key' upper', Option.some.injEq, Vector.toList_inj] at hbytes
  exact congrArg mk hbytes.symm

theorem map_toLower_digits (key : SecretKey) (upper : Nat → Bool) :
    (key.digits upper).map Char.toLower = key.digits fun _ => false :=
  map_toLower_writeDigits lt_of_mem_halves upper

/-- What is read is the digits of a key. -/
theorem ofHex_eq_ok_iff : ofHex s = .ok key ↔ ∃ upper, visible s = key.digits upper := by
  rw [← pairs?_eq_bytes_iff, visible]
  unfold ofHex
  split
  · rename_i hnone
    simp [hnone]
  · rename_i bytes hbytes
    rw [hbytes, Option.some.injEq]
    split
    · constructor
      · intro h
        rw [← Except.ok.inj h]
        rfl
      · intro h
        exact congrArg (fun v => Except.ok (mk v)) (Vector.toList_inj.1 h)
    · rename_i hlength
      constructor
      · intro h
        exact absurd h (by simp)
      · rintro rfl
        exact absurd Vector.length_toList hlength

/-- There is one way to be refused. -/
theorem ofHex_eq_error (h : ∀ key, ofHex s ≠ .ok key) : ofHex s = .error .invalidConfiguration := by
  unfold ofHex at h ⊢
  split
  · rfl
  · rename_i bytes hbytes
    simp only [hbytes] at h
    split
    · rename_i hlength
      exact absurd (dif_pos hlength) (h _)
    · rfl

/-- The texts of the grammar: sixty-four digits beside the blanks. -/
def IsWritten (s : String) : Prop := (visible s).length = 64 ∧ ∀ c ∈ visible s, IsHexDigit c

instance (s : String) : Decidable (IsWritten s) :=
  have := List.decidableBAll IsHexDigit (visible s)
  instDecidableAnd

theorem forall₂_digits (key : SecretKey) (upper : Nat → Bool) :
    List.Forall₂ IsDigitOf (key.bytes.toList.flatMap halves) (key.digits upper) :=
  (forall₂_isDigitOf_iff lt_of_mem_halves).2 ⟨upper, rfl⟩

theorem isHexDigit_of_mem_digits {upper : Nat → Bool} : ∀ c ∈ key.digits upper, IsHexDigit c :=
  isHexDigit_of_forall₂ (forall₂_digits key upper)

theorem length_digits (key : SecretKey) (upper : Nat → Bool) : (key.digits upper).length = 64 := by
  rw [← (forall₂_digits key upper).length_eq]
  simp only [List.length_flatMap, length_halves, List.map_const', List.sum_replicate_nat,
    Vector.length_toList]
  rfl

theorem isBlank_of_mem_digits {upper : Nat → Bool} : ∀ c ∈ key.digits upper, isBlank c = false := by
  intro c hc
  obtain ⟨v, hv, case, rfl⟩ := isHexDigit_iff.1 (isHexDigit_of_mem_digits c hc)
  exact isBlank_hexDigit case v hv

theorem spaced_digits_iff {upper : Nat → Bool} :
    Spaced (key.digits upper) s.toList ↔ visible s = key.digits upper :=
  spaced_iff isBlank_of_mem_digits

theorem exists_ofHex_iff : (∃ key, ofHex s = .ok key) ↔ IsWritten s := by
  constructor
  · rintro ⟨key, h⟩
    obtain ⟨upper, hs⟩ := ofHex_eq_ok_iff.1 h
    rw [IsWritten, hs]
    exact ⟨length_digits key upper, isHexDigit_of_mem_digits⟩
  · rintro ⟨hlength, hdigits⟩
    obtain ⟨bytes, hbytes, hn⟩ := exists_pairs? (n := keySize) hlength hdigits
    exact ⟨⟨⟨bytes.toArray, hn⟩⟩, ofHex_eq_ok_iff.2 (pairs?_eq_bytes_iff.1 hbytes)⟩

theorem ofHex_eq_ok_iff_spaced :
    ofHex s = .ok key ↔ ∃ upper, Spaced (key.digits upper) s.toList := by
  simp only [ofHex_eq_ok_iff, spaced_digits_iff]

theorem eq_iff_of_ofHex (hs : ofHex s = .ok key) (ht : ofHex t = .ok key') :
    key = key' ↔ (visible s).map Char.toLower = (visible t).map Char.toLower := by
  obtain ⟨upper, hs⟩ := ofHex_eq_ok_iff.1 hs
  obtain ⟨upper', ht⟩ := ofHex_eq_ok_iff.1 ht
  rw [hs, ht, map_toLower_digits, map_toLower_digits]
  constructor
  · intro h
    rw [h]
  · exact digits_injective

/-- A file that cannot be loaded holds no key. -/
theorem ofHex_of_unreadable {σ : Type} {file : FileState} {fault : FileFault}
    (h : file.text? = .error fault) (path : String) (st : σ) :
    ∃ text l, (file.loadKey path).run st = ⟨.ok text, st, l⟩ ∧
      ofHex text = .error .invalidConfiguration := by
  refine ⟨"", [.unreadable .key path fault], ?_, rfl⟩
  simp only [FileState.loadKey, FileState.load, h]
  rfl

/-- **A text is read as a key exactly if it is the written form of one.**  It has sixty-four
    digits beside its blanks, and these are the digits of the key; all other texts are refused
    with one error.  In whatever cases the digits of a key are written and wherever blanks are
    put, it is this key that is read; so two texts are read as one key exactly if their digits
    are the same up to their cases.  A file that cannot be loaded is refused like a text
    without digits. -/
theorem ofHex_grammar :
    (∀ s, (∃ key, ofHex s = .ok key) ↔ IsWritten s) ∧
    (∀ s key, ofHex s = .ok key → ∃ upper, visible s = key.digits upper) ∧
    (∀ s, ¬IsWritten s → ofHex s = .error .invalidConfiguration) ∧
    (∀ s key, ofHex s = .ok key ↔ ∃ upper, Spaced (key.digits upper) s.toList) ∧
    (∀ s t key key', ofHex s = .ok key → ofHex t = .ok key' →
      (key = key' ↔ (visible s).map Char.toLower = (visible t).map Char.toLower)) ∧
    ∀ (σ : Type) (st : σ) (path : String) (file : FileState) (fault : FileFault),
      file.text? = .error fault → ∃ text l, (file.loadKey path).run st = ⟨.ok text, st, l⟩ ∧
        ofHex text = .error .invalidConfiguration := by
  refine ⟨fun s => exists_ofHex_iff, fun s key => ofHex_eq_ok_iff.1, fun s hs => ?_,
    fun s key => ofHex_eq_ok_iff_spaced, fun s t key key' => eq_iff_of_ofHex,
    fun σ st path file fault h => ofHex_of_unreadable h path st⟩
  exact ofHex_eq_error fun key hkey => hs (exists_ofHex_iff.1 ⟨key, hkey⟩)

/-- A key in two lines and two cases, and with a blank inside a byte.  Too few and too many
    digits, a prefix, signs and the text of a missing file are refused. -/
theorem ofHex_grammar_two_lines :
    let key : SecretKey := ⟨.ofFn fun i => UInt8.ofNat (17 * (i % 16))⟩
    let s := "00112233445566778899aabbccddeeff\n00112233445566778899AABBCCDDEEFF\n"
    let t := "00112233445566778899AABBCCDDEEFF 0 0112233445566778899aabbccddeeff"
    let refused := ["0011", "0x" ++ String.ofList (List.replicate 62 '0'),
      String.ofList (List.replicate 64 '+'), String.ofList (List.replicate 66 '0')]
    ofHex s = .ok key ∧ ofHex t = .ok key ∧
      (visible s).map Char.toLower = (visible t).map Char.toLower ∧
      (∀ u ∈ refused, ofHex u = .error .invalidConfiguration) ∧
      ∃ text l, (FileState.missing.loadKey "key").run () = ⟨.ok text, (), l⟩ ∧
        ofHex text = .error .invalidConfiguration := by
  intro key s t refused
  obtain ⟨-, -, hrefuse, hread, hsame, hmissing⟩ := ofHex_grammar
  have hs : ofHex s = .ok key :=
    (hread s key).2 ⟨fun i => 32 ≤ i, spaced_digits_iff.2 (by decide +kernel)⟩
  have ht : ofHex t = .ok key :=
    (hread t key).2 ⟨fun i => i < 32, spaced_digits_iff.2 (by decide +kernel)⟩
  have hrefused : ∀ u ∈ refused, ¬IsWritten u := by decide +kernel
  exact ⟨hs, ht, (hsame s t key key hs ht).1 rfl, fun u hu => hrefuse u (hrefused u hu),
    hmissing Unit () "key" .missing .missing rfl⟩

end SecretKey

end ObliviousStore
