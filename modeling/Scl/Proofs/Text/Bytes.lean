import Scl.Text.Comment

/-!
# Comments in bytes

A text may be stored as the bytes of its characters. Most characters have several bytes, which say nothing by
themselves, so that a comment can be looked for byte by byte:

* `utf8EncodeChar_cases`: the bytes of a character are its own one, or none that an ASCII character has;
* `bytesBeforeComment`: the walk over the bytes, in which a backslash takes one byte along;
* `bytesBeforeComment_utf8`: the walk stops where the comment starts;
* `exists_bytesBeforeComment`: so a comment can be stripped in bytes.
-/

namespace Scl.Text

/-- The bytes of a text. -/
def utf8 (text : Text) : List UInt8 :=
  text.flatMap String.utf8EncodeChar

/-- The byte of a character with only one. -/
def byte (c : Char) : UInt8 :=
  UInt8.ofNat c.toNat

/-! ## Bytes of characters -/

/-- The character has only one byte. -/
def IsShort (c : Char) : Prop :=
  c.toNat < 128

instance (c : Char) : Decidable (IsShort c) :=
  inferInstanceAs (Decidable (c.toNat < 128))

/-- The byte is one of several of a character. -/
def IsPart (b : UInt8) : Prop :=
  128 ≤ b.toNat

variable {c d : Char} {b : UInt8}

theorem toNat_byte (hc : IsShort c) : (byte c).toNat = c.toNat := by
  rw [byte, UInt8.toNat_ofNat', Nat.mod_eq_of_lt (Nat.lt_trans hc (by decide))]

theorem byte_inj (hc : IsShort c) (hd : IsShort d) : byte c = byte d ↔ c = d := by
  refine ⟨fun h => ?_, congrArg byte⟩
  have hnat := congrArg UInt8.toNat h
  rw [toNat_byte hc, toNat_byte hd] at hnat
  exact Char.toNat_inj.mp hnat

theorem IsPart.ne_byte (hb : IsPart b) (hc : IsShort c) : b ≠ byte c := by
  rintro rfl
  rw [IsPart, toNat_byte hc] at hb
  exact Nat.not_le_of_lt hc hb

/-- A character has one byte of its own, or it is no short one and all its bytes are parts. -/
theorem utf8EncodeChar_cases (c : Char) :
    (IsShort c ∧ String.utf8EncodeChar c = [byte c]) ∨
      (¬IsShort c ∧ ∀ b ∈ String.utf8EncodeChar c, IsPart b) := by
  have hpart : ∀ n, 128 ≤ n → n < 256 → IsPart (UInt8.ofNat n) := fun n hle hlt => by
    rw [IsPart, UInt8.toNat_ofNat', Nat.mod_eq_of_lt hlt]
    exact hle
  by_cases hc : IsShort c
  · refine .inl ⟨hc, ?_⟩
    exact if_pos (Nat.le_of_lt_succ hc)
  · refine .inr ⟨hc, ?_⟩
    have hlong : ¬c.val.toNat ≤ 127 := fun hle => hc (Nat.lt_succ_of_le hle)
    simp only [String.utf8EncodeChar, if_neg hlong]
    split
    · simp only [List.forall_mem_cons]
      exact ⟨hpart _ (by omega) (by omega), hpart _ (by omega) (by omega), by simp⟩
    · split
      · simp only [List.forall_mem_cons]
        exact ⟨hpart _ (by omega) (by omega), hpart _ (by omega) (by omega), hpart _ (by omega) (by omega), by simp⟩
      · simp only [List.forall_mem_cons]
        exact ⟨hpart _ (by omega) (by omega), hpart _ (by omega) (by omega), hpart _ (by omega) (by omega),
          hpart _ (by omega) (by omega), by simp⟩

/-! ## The walk -/

def isQuoteByte (b : UInt8) : Bool :=
  b == byte '"' || b == byte '\'' || b == byte backtick

/-- The bytes before the first `//` outside quoted spans, reading from inside a span of `quote`, if any. -/
def bytesBeforeComment (quote : Option UInt8) : List UInt8 → List UInt8
  | [] => []
  | [b] => [b]
  | b :: e :: rest =>
    match quote with
    | none =>
      if b == byte '/' && e == byte '/' then []
      else b :: bytesBeforeComment (if isQuoteByte b then some b else none) (e :: rest)
    | some q =>
      if b == byte '\\' && q != byte backtick then b :: e :: bytesBeforeComment quote rest
      else b :: bytesBeforeComment (if b == q then none else quote) (e :: rest)

variable {quote : Option UInt8} {q : UInt8} {bytes : List UInt8}

theorem bytesBeforeComment_outside (h : ¬(b = byte '/' ∧ bytes.head? = some (byte '/'))) :
    bytesBeforeComment none (b :: bytes) =
      b :: bytesBeforeComment (if isQuoteByte b then some b else none) bytes := by
  cases bytes with
  | nil => simp [bytesBeforeComment]
  | cons e rest =>
    rw [bytesBeforeComment, if_neg (by simpa using h)]

theorem bytesBeforeComment_inside (h : ¬(b = byte '\\' ∧ q ≠ byte backtick)) :
    bytesBeforeComment (some q) (b :: bytes) =
      b :: bytesBeforeComment (if b == q then none else some q) bytes := by
  cases bytes with
  | nil => simp [bytesBeforeComment]
  | cons e rest =>
    rw [bytesBeforeComment, if_neg (by simpa using h)]

theorem bytesBeforeComment_escape (h : q ≠ byte backtick) (e : UInt8) (bytes : List UInt8) :
    bytesBeforeComment (some q) (byte '\\' :: e :: bytes) =
      byte '\\' :: e :: bytesBeforeComment (some q) bytes :=
  if_pos (by simpa using h)

/-- Parts of characters have no meaning. -/
theorem bytesBeforeComment_parts {parts : List UInt8} (h : ∀ b ∈ parts, IsPart b)
    (hquote : ∀ q ∈ quote, ∃ c, IsShort c ∧ q = byte c) (bytes : List UInt8) :
    bytesBeforeComment quote (parts ++ bytes) = parts ++ bytesBeforeComment quote bytes := by
  induction parts with
  | nil => rfl
  | cons b parts ih =>
    obtain ⟨hb, hparts⟩ := List.forall_mem_cons.mp h
    rw [List.cons_append, List.cons_append, ← ih hparts]
    cases quote with
    | none =>
      have hmark : isQuoteByte b = false := by
        have hne : ∀ c, IsShort c → b ≠ byte c := fun c => hb.ne_byte
        simp [isQuoteByte, hne '"' (by decide), hne '\'' (by decide), hne backtick (by decide)]
      rw [bytesBeforeComment_outside fun heq => hb.ne_byte (by decide) heq.1, hmark]
      rfl
    | some q =>
      obtain ⟨c, hc, rfl⟩ := hquote q rfl
      rw [bytesBeforeComment_inside fun heq => hb.ne_byte (by decide) heq.1, if_neg (by simpa using hb.ne_byte hc)]

/-! ## Bytes and characters -/

theorem isShort_of_isQuote (h : isQuote c) : IsShort c := by
  simp only [isQuote, Bool.or_eq_true, beq_iff_eq] at h
  rcases h with (rfl | rfl) | rfl <;> decide

theorem isQuoteByte_byte (hc : IsShort c) : isQuoteByte (byte c) = isQuote c := by
  rw [Bool.eq_iff_iff]
  simp only [isQuoteByte, isQuote, Bool.or_eq_true, beq_iff_eq, byte_inj hc (show IsShort '"' by decide),
    byte_inj hc (show IsShort '\'' by decide), byte_inj hc (show IsShort backtick by decide)]

theorem utf8_cons (c : Char) (text : Text) : utf8 (c :: text) = String.utf8EncodeChar c ++ utf8 text :=
  List.flatMap_cons

/-- The first byte of a text is that of a short character only if it starts with the character. -/
theorem head?_utf8 (hd : IsShort d) (text : Text) : (utf8 text).head? = some (byte d) ↔ text.head? = some d := by
  cases text with
  | nil => simp [utf8]
  | cons c rest =>
    obtain ⟨b, parts, hbytes⟩ := List.exists_cons_of_ne_nil (@String.utf8EncodeChar_ne_nil c)
    rw [utf8_cons, hbytes, List.cons_append, List.head?_cons, List.head?_cons, Option.some_inj, Option.some_inj]
    rcases utf8EncodeChar_cases c with ⟨hc, hshort⟩ | ⟨hc, hparts⟩
    · rw [hbytes] at hshort
      rw [(List.cons.inj hshort).1, byte_inj hc hd]
    · refine iff_of_false (fun h => ?_) ?_
      · exact (hparts b (by rw [hbytes]; exact List.mem_cons_self)).ne_byte hd h
      · rintro rfl
        exact hc hd

variable {quote? : Option Char} {mark : Char} {text : Text}

/-- The span that a character opens, or leaves open, in bytes and in characters. -/
theorem exists_isShort_of_mark (h : isQuote mark) : ∀ q ∈ some (byte mark), ∃ c, IsShort c ∧ q = byte c := by
  rintro _ ⟨⟩
  exact ⟨mark, isShort_of_isQuote h, rfl⟩

theorem bytesBeforeComment_cons_outside (h : ¬(c = '/' ∧ text.head? = some '/')) :
    bytesBeforeComment none (utf8 (c :: text)) =
      String.utf8EncodeChar c ++
        bytesBeforeComment ((if isQuote c then some c else none).map byte) (utf8 text) := by
  rw [utf8_cons]
  rcases utf8EncodeChar_cases c with ⟨hc, hbytes⟩ | ⟨hc, hparts⟩
  · have hslashes : ¬(byte c = byte '/' ∧ (utf8 text).head? = some (byte '/')) := by
      rwa [byte_inj hc (by decide), head?_utf8 (by decide)]
    rw [hbytes, List.singleton_append, List.singleton_append, bytesBeforeComment_outside hslashes,
      isQuoteByte_byte hc]
    cases isQuote c <;> rfl
  · have hmark : isQuote c = false := by
      rw [← Bool.not_eq_true]
      exact fun hmark => hc (isShort_of_isQuote hmark)
    rw [bytesBeforeComment_parts hparts (by simp), hmark]
    rfl

theorem bytesBeforeComment_cons_inside (hmark : isQuote mark) (h : ¬(c = '\\' ∧ mark ≠ backtick)) :
    bytesBeforeComment (some (byte mark)) (utf8 (c :: text)) =
      String.utf8EncodeChar c ++
        bytesBeforeComment ((if c == mark then none else some mark).map byte) (utf8 text) := by
  have hshort := isShort_of_isQuote hmark
  rw [utf8_cons]
  rcases utf8EncodeChar_cases c with ⟨hc, hbytes⟩ | ⟨hc, hparts⟩
  · have hescape : ¬(byte c = byte '\\' ∧ byte mark ≠ byte backtick) := by
      rwa [Ne, byte_inj hc (by decide), byte_inj hshort (by decide)]
    have hsame : (byte c == byte mark) = (c == mark) := by
      rw [Bool.eq_iff_iff, beq_iff_eq, beq_iff_eq, byte_inj hc hshort]
    rw [hbytes, List.singleton_append, List.singleton_append, bytesBeforeComment_inside hescape, hsame]
    cases c == mark <;> rfl
  · have hne : ¬(c == mark) = true := by
      rw [beq_iff_eq]
      rintro rfl
      exact hc hshort
    rw [bytesBeforeComment_parts hparts (exists_isShort_of_mark hmark), if_neg hne]
    rfl

/-- Of the character after a backslash the walk takes only the first byte along, but the others are parts. -/
theorem bytesBeforeComment_cons_escape (hmark : isQuote mark) (hne : mark ≠ backtick) (d : Char) :
    bytesBeforeComment (some (byte mark)) (utf8 ('\\' :: d :: text)) =
      utf8 ['\\', d] ++ bytesBeforeComment (some (byte mark)) (utf8 text) := by
  have hbackslash : String.utf8EncodeChar '\\' = [byte '\\'] := rfl
  have hbyte : byte mark ≠ byte backtick := mt (byte_inj (isShort_of_isQuote hmark) (by decide)).mp hne
  obtain ⟨b, parts, hbytes⟩ := List.exists_cons_of_ne_nil (@String.utf8EncodeChar_ne_nil d)
  have hparts : ∀ e ∈ parts, IsPart e := by
    rcases utf8EncodeChar_cases d with ⟨-, hshort⟩ | ⟨-, hall⟩
    · rw [hbytes] at hshort
      rw [(List.cons.inj hshort).2]
      simp
    · rw [hbytes] at hall
      exact (List.forall_mem_cons.mp hall).2
  simp only [utf8_cons, hbackslash, hbytes, List.cons_append, List.nil_append]
  rw [bytesBeforeComment_escape hbyte, bytesBeforeComment_parts hparts (exists_isShort_of_mark hmark)]
  simp [utf8]

/-- The walk over the bytes of a text stops where its comment starts, so it stops between two characters. -/
theorem bytesBeforeComment_utf8 (hquote : ∀ mark ∈ quote?, isQuote mark) (text : Text) :
    bytesBeforeComment (quote?.map byte) (utf8 text) = utf8 (beforeComment quote? text) := by
  fun_induction beforeComment quote? text with
  | case1 quote? => rfl
  | case2 quote? c =>
    rcases utf8EncodeChar_cases c with ⟨hc, hbytes⟩ | ⟨hc, hparts⟩
    · rw [utf8_cons, hbytes]
      rfl
    · have hshort : ∀ q ∈ quote?.map byte, ∃ c, IsShort c ∧ q = byte c := by
        cases quote? with
        | none => simp
        | some mark => exact exists_isShort_of_mark (hquote mark rfl)
      exact bytesBeforeComment_parts hparts hshort []
  | case3 c d rest hslashes =>
    simp only [Bool.and_eq_true, beq_iff_eq] at hslashes
    obtain ⟨rfl, rfl⟩ := hslashes
    rfl
  | case4 c d rest hslashes ih =>
    have hopened : ∀ mark ∈ (if isQuote c then some c else none), isQuote mark := by
      cases hmark : isQuote c with
      | false => simp
      | true =>
        rintro _ ⟨⟩
        exact hmark
    rw [Option.map_none, bytesBeforeComment_cons_outside (by simpa using hslashes), ih hopened, utf8_cons]
  | case5 c d rest mark hescape ih =>
    simp only [Bool.and_eq_true, beq_iff_eq, bne_iff_ne] at hescape
    obtain ⟨rfl, hne⟩ := hescape
    rw [Option.map_some] at ih ⊢
    rw [bytesBeforeComment_cons_escape (hquote mark rfl) hne, ih hquote]
    simp [utf8]
  | case6 c d rest mark hescape ih =>
    have hmark := hquote mark rfl
    have hleft : ∀ q ∈ (if c == mark then none else some mark), isQuote q := by
      cases hclose : c == mark with
      | true => simp
      | false =>
        rintro _ ⟨⟩
        exact hmark
    rw [Option.map_some, bytesBeforeComment_cons_inside hmark (by simpa using hescape), ih hleft, utf8_cons]

/-- Stripping a comment is trimming what the walk over the bytes leaves. -/
theorem exists_bytesBeforeComment (text : Text) :
    ∃ before, bytesBeforeComment none (utf8 text) = utf8 before ∧ stripComment text = trim before :=
  ⟨beforeComment none text, @bytesBeforeComment_utf8 none (by simp) text, rfl⟩

/-- A backslash before a letter of two bytes, and slashes after the quote that ends the span. -/
example : bytesBeforeComment none (utf8 "\"\\é\"//x".toList) = utf8 "\"\\é\"".toList := by
  decide +kernel

end Scl.Text
