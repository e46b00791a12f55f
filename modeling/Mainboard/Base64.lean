import Mathlib.Data.List.Basic
import Mathlib.Data.List.TakeWhile
import Mathlib.Tactic.Cases

/-! Base64 as it is written and as it is read. The reader skips what it does not know and stops at the padding that
closes a quad, so it reads texts the writer never makes; it fails only where the letters end inside a quad. -/

namespace Mainboard.Base64

/-- The letters, each standing for its place in the list. -/
def alphabet : List Char := "ABCDEFGHIJKLMNOPQRSTUVWXYZabcdefghijklmnopqrstuvwxyz0123456789+/".toList

def digit (value : ℕ) : Char := alphabet.getD value '='

def value (char : Char) : Option ℕ := alphabet.idxOf? char

def isLetter (char : Char) : Bool := (value char).isSome

/-- `base64.b64encode`. -/
def encode : List UInt8 → List Char
  | [] => []
  | [first] => [digit (first.toNat / 4), digit (first.toNat % 4 * 16), '=', '=']
  | [first, second] =>
      [digit (first.toNat / 4), digit (first.toNat % 4 * 16 + second.toNat / 16), digit (second.toNat % 16 * 4), '=']
  | first :: second :: third :: rest =>
      digit (first.toNat / 4) :: digit (first.toNat % 4 * 16 + second.toNat / 16) ::
        digit (second.toNat % 16 * 4 + third.toNat / 64) :: digit (third.toNat % 64) :: encode rest

/-- The reader inside a quad: how many of its letters are read, the bits left over from the last one, and the padding
since then. -/
def decodeFrom (place left pads : ℕ) : List Char → Option (List UInt8)
  | [] => if place = 0 then some [] else none
  | char :: rest =>
      if char = '=' then
        if 2 ≤ place then
          if 4 ≤ place + (pads + 1) then some [] else decodeFrom place left (pads + 1) rest
        else decodeFrom place left pads rest
      else match value char with
        | none => decodeFrom place left pads rest
        | some bits => match place with
          | 0 => decodeFrom 1 bits 0 rest
          | 1 => (decodeFrom 2 (bits % 16) 0 rest).map (UInt8.ofNat (left * 4 + bits / 16) :: ·)
          | 2 => (decodeFrom 3 (bits % 4) 0 rest).map (UInt8.ofNat (left * 16 + bits / 4) :: ·)
          | _ => (decodeFrom 0 0 0 rest).map (UInt8.ofNat (left * 64 + bits) :: ·)

/-- `base64.b64decode`, nothing where it raises. -/
def decode (text : List Char) : Option (List UInt8) := decodeFrom 0 0 0 text

/-- Whole quads, padded at the end and nowhere else. -/
def padded (text : List Char) : Bool :=
  let tail := text.dropWhile isLetter
  text.length % 4 = 0 && (tail = [] || tail = ['='] || tail = ['=', '='])

def letters (text : List Char) : ℕ := text.countP isLetter

/-- Padding that follows some letters, those read before it included, whose number leaves `rest` over whole quads. -/
def ClosesAt (place : ℕ) (pad : List Char) (rest : ℕ) (text : List Char) : Prop :=
  ∃ before, before ++ pad <+: text ∧ (place + letters before) % 4 = rest

/-- What the reader takes without raising: letters in whole quads, or a quad that padding closes on the way. -/
def Readable (text : List Char) : Prop :=
  letters text % 4 = 0 ∨ ClosesAt 0 ['='] 3 text ∨ ClosesAt 0 ['=', '='] 2 text

section Letters

variable {bits : ℕ} {char : Char} {text : List Char} {data : List UInt8}

theorem value_digit (h : bits < 64) : value (digit bits) = some bits := by
  have hall : ∀ bits < 64, value (digit bits) = some bits := by decide +kernel
  exact hall bits h

theorem isLetter_digit (h : bits < 64) : isLetter (digit bits) = true := by rw [isLetter, value_digit h]; rfl

theorem isLetter_pad : isLetter '=' = false := by decide +kernel

theorem digit_ne_pad (h : bits < 64) : digit bits ≠ '=' := fun hsame => by
  have hletter := isLetter_digit h
  rw [hsame, isLetter_pad] at hletter
  exact Bool.false_ne_true hletter

theorem decodeFrom_first (left pads : ℕ) (h : char ≠ '=') (hbits : value char = some bits) (rest : List Char) :
    decodeFrom 0 left pads (char :: rest) = decodeFrom 1 bits 0 rest := by
  rw [decodeFrom, if_neg h, hbits]
  rfl

theorem decodeFrom_second (left pads : ℕ) (h : char ≠ '=') (hbits : value char = some bits) (rest : List Char) :
    decodeFrom 1 left pads (char :: rest) =
      (decodeFrom 2 (bits % 16) 0 rest).map (UInt8.ofNat (left * 4 + bits / 16) :: ·) := by
  rw [decodeFrom, if_neg h, hbits]
  rfl

theorem decodeFrom_third (left pads : ℕ) (h : char ≠ '=') (hbits : value char = some bits) (rest : List Char) :
    decodeFrom 2 left pads (char :: rest) =
      (decodeFrom 3 (bits % 4) 0 rest).map (UInt8.ofNat (left * 16 + bits / 4) :: ·) := by
  rw [decodeFrom, if_neg h, hbits]
  rfl

theorem decodeFrom_fourth (left pads : ℕ) (h : char ≠ '=') (hbits : value char = some bits) (rest : List Char) :
    decodeFrom 3 left pads (char :: rest) =
      (decodeFrom 0 0 0 rest).map (UInt8.ofNat (left * 64 + bits) :: ·) := by
  rw [decodeFrom, if_neg h, hbits]
  rfl

theorem ofNat_eq (byte : UInt8) {code : ℕ} (h : code = byte.toNat) : UInt8.ofNat code = byte := by
  rw [h, UInt8.ofNat_toNat]

/-- What is written is read back. -/
theorem decode_encode (data : List UInt8) : decode (encode data) = some data := by
  unfold decode
  induction data using encode.induct with
  | case1 => rfl
  | case2 first =>
      have hfirst := first.toNat_lt
      have hone : first.toNat / 4 < 64 := by omega
      have htwo : first.toNat % 4 * 16 < 64 := by omega
      rw [encode, decodeFrom_first 0 0 (digit_ne_pad hone) (value_digit hone),
        decodeFrom_second _ 0 (digit_ne_pad htwo) (value_digit htwo), ofNat_eq first (by omega)]
      rfl
  | case3 first second =>
      have hfirst := first.toNat_lt
      have hsecond := second.toNat_lt
      have hone : first.toNat / 4 < 64 := by omega
      have htwo : first.toNat % 4 * 16 + second.toNat / 16 < 64 := by omega
      have hthree : second.toNat % 16 * 4 < 64 := by omega
      rw [encode, decodeFrom_first 0 0 (digit_ne_pad hone) (value_digit hone),
        decodeFrom_second _ 0 (digit_ne_pad htwo) (value_digit htwo), ofNat_eq first (by omega),
        decodeFrom_third _ 0 (digit_ne_pad hthree) (value_digit hthree), ofNat_eq second (by omega)]
      rfl
  | case4 first second third rest ih =>
      have hfirst := first.toNat_lt
      have hsecond := second.toNat_lt
      have hthird := third.toNat_lt
      have hone : first.toNat / 4 < 64 := by omega
      have htwo : first.toNat % 4 * 16 + second.toNat / 16 < 64 := by omega
      have hthree : second.toNat % 16 * 4 + third.toNat / 64 < 64 := by omega
      have hfour : third.toNat % 64 < 64 := by omega
      rw [encode, decodeFrom_first 0 0 (digit_ne_pad hone) (value_digit hone),
        decodeFrom_second _ 0 (digit_ne_pad htwo) (value_digit htwo), ofNat_eq first (by omega),
        decodeFrom_third _ 0 (digit_ne_pad hthree) (value_digit hthree), ofNat_eq second (by omega),
        decodeFrom_fourth _ 0 (digit_ne_pad hfour) (value_digit hfour), ofNat_eq third (by omega), ih]
      rfl

theorem length_encode (data : List UInt8) : (encode data).length % 4 = 0 := by
  induction data using encode.induct with
  | case1 => rfl
  | case2 first => simp [encode]
  | case3 first second => simp [encode]
  | case4 first second third rest ih => simp only [encode, List.length_cons]; omega

theorem encode_eq_nil : encode data = [] ↔ data = [] := by
  cases data using encode.induct with
  | case1 => simp [encode]
  | case2 first => simp [encode]
  | case3 first second => simp [encode]
  | case4 first second third rest => simp [encode]

/-- Only letters and padding are written. -/
theorem encode_chars (data : List UInt8) : ∀ char ∈ encode data, char = '=' ∨ isLetter char = true := by
  induction data using encode.induct with
  | case1 => simp [encode]
  | case2 first =>
      have hfirst := first.toNat_lt
      simp [encode, isLetter_digit (show first.toNat / 4 < 64 by omega),
        isLetter_digit (show first.toNat % 4 * 16 < 64 by omega)]
  | case3 first second =>
      have hfirst := first.toNat_lt
      have hsecond := second.toNat_lt
      simp [encode, isLetter_digit (show first.toNat / 4 < 64 by omega),
        isLetter_digit (show first.toNat % 4 * 16 + second.toNat / 16 < 64 by omega),
        isLetter_digit (show second.toNat % 16 * 4 < 64 by omega)]
  | case4 first second third rest ih =>
      have hfirst := first.toNat_lt
      have hsecond := second.toNat_lt
      have hthird := third.toNat_lt
      simp only [encode, List.mem_cons, forall_eq_or_imp]
      exact ⟨Or.inr (isLetter_digit (by omega)), Or.inr (isLetter_digit (by omega)),
        Or.inr (isLetter_digit (by omega)), Or.inr (isLetter_digit (by omega)), ih⟩

theorem dropWhile_letter (h : isLetter char = true) (rest : List Char) :
    (char :: rest).dropWhile isLetter = rest.dropWhile isLetter := by
  rw [List.dropWhile_cons, if_pos h]

end Letters

section Reading

variable {place left pads rest : ℕ} {char : Char} {pad text : List Char}

theorem letters_cons (char : Char) (text : List Char) :
    letters (char :: text) = letters text + if isLetter char = true then 1 else 0 := List.countP_cons

theorem closesAt_nil (hpad : pad ≠ []) : ¬ ClosesAt place pad rest [] := by
  rintro ⟨before, hbefore, -⟩
  exact hpad (List.append_eq_nil_iff.mp (List.prefix_nil.mp hbefore)).2

/-- Padding closes a text at its first character or in what follows it. -/
theorem closesAt_cons : ClosesAt place pad rest (char :: text) ↔
    pad <+: char :: text ∧ place % 4 = rest ∨
      ClosesAt (place + if isLetter char = true then 1 else 0) pad rest text := by
  constructor
  · rintro ⟨before, hbefore, hcount⟩
    cases before with
    | nil => exact Or.inl ⟨hbefore, hcount⟩
    | cons head before =>
        obtain ⟨rfl, htail⟩ := List.cons_prefix_cons.mp hbefore
        refine Or.inr ⟨before, htail, ?_⟩
        rw [letters_cons] at hcount
        omega
  · rintro (⟨hpad, hcount⟩ | ⟨before, hbefore, hcount⟩)
    · exact ⟨[], hpad, hcount⟩
    · refine ⟨char :: before, List.cons_prefix_cons.mpr ⟨rfl, hbefore⟩, ?_⟩
      rw [letters_cons]
      omega

theorem closesAt_mod (place : ℕ) : ClosesAt (place % 4) pad rest text ↔ ClosesAt place pad rest text := by
  unfold ClosesAt
  simp only [Nat.add_mod, Nat.mod_mod]

/-- What the reader takes from inside a quad. -/
def ReadableFrom (place pads : ℕ) (text : List Char) : Prop :=
  (place + letters text) % 4 = 0 ∨ ClosesAt place ['='] 3 text ∨ ClosesAt place ['=', '='] 2 text ∨
    pads = 1 ∧ ['='] <+: text

theorem readableFrom_letter (h : isLetter char = true) :
    ReadableFrom place pads (char :: text) ↔ ReadableFrom ((place + 1) % 4) 0 text := by
  have hpad : char ≠ '=' := fun hsame => by
    rw [hsame, isLetter_pad] at h
    exact Bool.false_ne_true h
  have hhead : ∀ pad, ¬ '=' :: pad <+: char :: text := fun pad hpre => hpad (List.cons_prefix_cons.mp hpre).1.symm
  unfold ReadableFrom
  rw [closesAt_cons, closesAt_cons, letters_cons, if_pos h, closesAt_mod, closesAt_mod]
  have hcount : (place + (letters text + 1)) % 4 = 0 ↔ ((place + 1) % 4 + letters text) % 4 = 0 := by omega
  simp [hhead, hcount]

theorem readableFrom_pad (hplace : place < 2) : ReadableFrom place 0 ('=' :: text) ↔ ReadableFrom place 0 text := by
  unfold ReadableFrom
  rw [closesAt_cons, closesAt_cons, letters_cons, isLetter_pad]
  have hthree : place % 4 ≠ 3 := by omega
  have htwo : place % 4 ≠ 2 := by omega
  simp [hthree, htwo]

theorem readableFrom_first_pad : ReadableFrom 2 0 ('=' :: text) ↔ ReadableFrom 2 1 text := by
  unfold ReadableFrom
  rw [closesAt_cons, closesAt_cons, letters_cons, isLetter_pad]
  have hpair : ['=', '='] <+: '=' :: text ↔ ['='] <+: text := by simp [List.cons_prefix_cons]
  simp only [hpair, Bool.false_eq_true, if_false, Nat.add_zero]
  tauto

theorem value_isSome (h : isLetter char = true) : ∃ bits, value char = some bits := Option.isSome_iff_exists.mp h

/-- Wherever it stands, the reader fails only on a text whose letters end inside a quad no padding closes. -/
theorem decodeFrom_isSome_iff (hplace : place < 4) (hpads : pads = 0 ∨ pads = 1 ∧ place = 2)
    (h : ∀ char ∈ text, char = '=' ∨ isLetter char = true) :
    (decodeFrom place left pads text).isSome ↔ ReadableFrom place pads text := by
  induction text generalizing place left pads with
  | nil =>
      have hone : ¬ ClosesAt place ['='] 3 [] := closesAt_nil (List.cons_ne_nil _ _)
      have htwo : ¬ ClosesAt place ['=', '='] 2 [] := closesAt_nil (List.cons_ne_nil _ _)
      have hmod : place % 4 = place := Nat.mod_eq_of_lt hplace
      unfold decodeFrom ReadableFrom
      by_cases hzero : place = 0 <;> simp [hzero, hone, htwo, letters, hmod]
  | cons char text ih =>
      have hrest := fun other hother => h other (List.mem_cons_of_mem _ hother)
      rcases h char List.mem_cons_self with rfl | hletter
      · rw [decodeFrom, if_pos rfl]
        by_cases hlow : 2 ≤ place
        · rw [if_pos hlow]
          by_cases hdone : 4 ≤ place + (pads + 1)
          · rw [if_pos hdone]
            refine iff_of_true rfl ?_
            rcases hpads with rfl | ⟨rfl, rfl⟩
            · exact Or.inr (Or.inl ⟨[], List.cons_prefix_cons.mpr ⟨rfl, List.nil_prefix⟩, by simp [letters]; omega⟩)
            · exact Or.inr (Or.inr (Or.inr ⟨rfl, List.cons_prefix_cons.mpr ⟨rfl, List.nil_prefix⟩⟩))
          · rw [if_neg hdone]
            obtain rfl : pads = 0 := by omega
            obtain rfl : place = 2 := by omega
            rw [ih (by omega) (Or.inr ⟨rfl, rfl⟩) hrest, readableFrom_first_pad]
        · rw [if_neg hlow]
          obtain rfl : pads = 0 := by omega
          rw [ih hplace (Or.inl rfl) hrest, readableFrom_pad (by omega)]
      · obtain ⟨bits, hbits⟩ := value_isSome hletter
        have hpad : char ≠ '=' := fun hsame => by
          rw [hsame, isLetter_pad] at hletter
          exact Bool.false_ne_true hletter
        rw [readableFrom_letter hletter]
        match place, hplace with
        | 0, _ =>
            rw [decodeFrom_first _ _ hpad hbits]
            exact ih (by omega) (Or.inl rfl) hrest
        | 1, _ =>
            rw [decodeFrom_second _ _ hpad hbits, Option.isSome_map]
            exact ih (by omega) (Or.inl rfl) hrest
        | 2, _ =>
            rw [decodeFrom_third _ _ hpad hbits, Option.isSome_map]
            exact ih (by omega) (Or.inl rfl) hrest
        | 3, _ =>
            rw [decodeFrom_fourth _ _ hpad hbits, Option.isSome_map]
            exact ih (by omega) (Or.inl rfl) hrest

/-- Which texts of letters and padding are read without raising. -/
theorem decode_isSome_iff (h : ∀ char ∈ text, char = '=' ∨ isLetter char = true) :
    (decode text).isSome ↔ Readable text := by
  unfold decode
  rw [decodeFrom_isSome_iff (by omega) (Or.inl rfl) h]
  unfold ReadableFrom Readable
  simp

/-- A text padded as it should be is read. -/
theorem readable_of_padded (h : padded text = true) : Readable text := by
  unfold padded at h
  simp only [Bool.and_eq_true, Bool.or_eq_true, decide_eq_true_eq] at h
  obtain ⟨hlength, htail⟩ := h
  have hsplit : text.takeWhile isLetter ++ text.dropWhile isLetter = text := List.takeWhile_append_dropWhile
  have hcount : letters (text.takeWhile isLetter) = (text.takeWhile isLetter).length :=
    List.countP_eq_length.mpr fun char hchar => List.mem_takeWhile_imp hchar
  have hwhole : (text.takeWhile isLetter).length + (text.dropWhile isLetter).length = text.length := by
    rw [← List.length_append, hsplit]
  rcases htail with (hnone | hone) | htwo
  · left
    rw [hnone, List.append_nil] at hsplit
    rw [← hsplit, hcount, hsplit]
    exact hlength
  · right; left
    rw [hone] at hsplit hwhole
    refine ⟨text.takeWhile isLetter, ⟨[], by rw [List.append_nil, hsplit]⟩, ?_⟩
    rw [hcount]
    simp only [List.length_singleton] at hwhole
    omega
  · right; right
    rw [htwo] at hsplit hwhole
    refine ⟨text.takeWhile isLetter, ⟨[], by rw [List.append_nil, hsplit]⟩, ?_⟩
    rw [hcount]
    simp only [List.length_cons, List.length_nil] at hwhole
    omega

theorem padded_chars (h : padded text = true) : ∀ char ∈ text, char = '=' ∨ isLetter char = true := by
  intro char hchar
  unfold padded at h
  simp only [Bool.and_eq_true, Bool.or_eq_true, decide_eq_true_eq] at h
  rw [← @List.takeWhile_append_dropWhile _ isLetter text, List.mem_append] at hchar
  rcases hchar with hletter | htail
  · exact Or.inr (List.mem_takeWhile_imp hletter)
  · left
    rcases h.2 with (hnone | hone) | htwo
    · rw [hnone] at htail
      exact absurd htail List.not_mem_nil
    · rw [hone] at htail
      exact List.mem_singleton.mp htail
    · rw [htwo] at htail
      simpa using htail

end Reading

end Mainboard.Base64
