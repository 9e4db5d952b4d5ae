import LpcInspect.Json.Token
import LpcInspect.Json.Printer
import LpcInspect.Proofs.Text.Hex

/-!
# Lexing what is written

The tokens of a value are those of its text. A run of the lexer is described by `Lexes`, for any
tokens found before and any characters that follow. Only a word or a number needs to know what
follows, since it goes on as long as the characters allow: a value is lexed in front of a
`Boundary`.
-/

namespace LpcInspect.Json

/-! ### Runs of the lexer -/

/-- Characters take the lexer from one state to another and complete tokens. -/
def Lexes (s : LexState) (chars : List Char) (s' : LexState) (tokens : List Token) : Prop :=
  ∀ found rest, lexFrom s found (chars ++ rest) = lexFrom s' (tokens.reverse ++ found) rest

theorem Lexes.nil (s : LexState) : Lexes s [] s [] := fun _ _ => rfl

theorem Lexes.append {s s' s'' : LexState} {chars more : List Char} {tokens later : List Token}
    (h : Lexes s chars s' tokens) (h' : Lexes s' more s'' later) :
    Lexes s (chars ++ more) s'' (tokens ++ later) := by
  intro found rest
  rw [List.append_assoc, h, h', List.reverse_append, List.append_assoc]

/-- One step of the lexer. -/
theorem Lexes.step {s s' : LexState} {c : Char} {tokens : List Token}
    (h : lexStep s c = some (s', tokens)) : Lexes s [c] s' tokens.reverse := by
  intro found rest
  rw [List.singleton_append, lexFrom, h, List.reverse_reverse]

/-- Characters that each go on with a word or a number are gathered. -/
theorem lexes_gather (state : List Char → LexState) (gathered : List Char) {chars : List Char}
    (h : ∀ c ∈ chars, ∀ g, lexStep (state g) c = some (state (c :: g), [])) :
    Lexes (state gathered) chars (state (chars.reverse ++ gathered)) [] := by
  induction chars generalizing gathered with
  | nil => exact .nil _
  | cons c rest ih =>
    have hrest := ih (c :: gathered) fun d hd => h d (List.mem_cons_of_mem _ hd)
    rw [List.reverse_cons, List.append_assoc]
    exact Lexes.append (.step (h c (List.mem_cons_self ..) gathered)) hrest

/-- Characters that may follow a word or a number: the first one belongs to neither. -/
def Boundary (rest : List Char) : Prop :=
  ∀ c ∈ rest.head?, c.isLower = false ∧ isNumberChar c = false

theorem boundary_nil : Boundary [] := by
  intro c hc
  cases hc

/-- A word or a number ends at a boundary: its token is found, and lexing goes on between tokens. -/
theorem lexFrom_of_ends {s : LexState} {token : Token} (hend : lexEnd s = some [token])
    (hstep : ∀ c, c.isLower = false → isNumberChar c = false →
      lexStep s c = (lexBetween c).map fun next => (next.1, next.2 ++ [token]))
    {rest : List Char} (hrest : Boundary rest) (found : List Token) :
    lexFrom s found rest = lexFrom .between (token :: found) rest := by
  cases rest with
  | nil =>
    rw [lexFrom, hend, lexFrom]
    rfl
  | cons c rest =>
    -- The character that ends the token is also the first one after it.
    obtain ⟨hlower, hnumber⟩ := hrest c rfl
    rw [lexFrom, hstep c hlower hnumber, lexFrom, lexStep]
    cases lexBetween c with
    | none => rfl
    | some next => simp only [Option.map_some, List.append_assoc, List.singleton_append]

theorem lexFrom_word {gathered : List Char} {token : Token}
    (h : wordToken? gathered.reverse = some token) {rest : List Char} (hrest : Boundary rest)
    (found : List Token) :
    lexFrom (.word gathered) found rest = lexFrom .between (token :: found) rest := by
  refine lexFrom_of_ends (by rw [lexEnd, h]; rfl) (fun c hlower _ => ?_) hrest found
  rw [lexStep, hlower, h]
  cases lexBetween c <;> rfl

theorem lexFrom_number {gathered : List Char} {token : Token}
    (h : numberToken? gathered.reverse = some token) {rest : List Char} (hrest : Boundary rest)
    (found : List Token) :
    lexFrom (.number gathered) found rest = lexFrom .between (token :: found) rest := by
  refine lexFrom_of_ends (by rw [lexEnd, h]; rfl) (fun c _ hnumber => ?_) hrest found
  rw [lexStep, hnumber, h]
  cases lexBetween c <;> rfl

/-! ### Numbers -/

theorem isNumberChar_of_isDigit {c : Char} (h : c.isDigit) : isNumberChar c := by
  simp [isNumberChar, h]

/-- A digit between tokens starts a number. -/
theorem lexBetween_of_isDigit {c : Char} (h : c.isDigit) :
    lexBetween c = some (.number [c], []) := by
  have hne (d : Char) (hd : d.isDigit = false) : (c == d) = false := by
    rw [beq_eq_false_iff_ne]
    rintro rfl
    rw [h] at hd
    cases hd
  simp only [lexBetween, hne _ (by decide : Char.isDigit ' ' = false),
    hne _ (by decide : Char.isDigit '\t' = false), hne _ (by decide : Char.isDigit '\n' = false),
    hne _ (by decide : Char.isDigit '\r' = false), hne _ (by decide : Char.isDigit '[' = false),
    hne _ (by decide : Char.isDigit ']' = false), hne _ (by decide : Char.isDigit '\x7b' = false),
    hne _ (by decide : Char.isDigit '\x7d' = false), hne _ (by decide : Char.isDigit ',' = false),
    hne _ (by decide : Char.isDigit ':' = false), hne _ (by decide : Char.isDigit '"' = false), h]
  rfl

/-- The digits of a number other than zero do not start with a zero. -/
theorem head_toDigits_ne_zero {n : Nat} (h : 0 < n) : (Nat.toDigits 10 n).head? ≠ some '0' := by
  induction n using Nat.strongRecOn with
  | _ n ih =>
    by_cases hlt : n < 10
    · have hdigit : ∀ n < 10, 0 < n → Nat.digitChar n ≠ '0' := by decide
      rw [Nat.toDigits_of_lt_base hlt]
      intro hhead
      exact hdigit n hlt h (Option.some.inj hhead)
    · have hhead := ih (n / 10) (by omega) (by omega)
      rw [Nat.toDigits_of_base_le (by decide) (Nat.le_of_not_lt hlt)]
      cases hdigits : Nat.toDigits 10 (n / 10) with
      | nil => exact absurd hdigits Nat.toDigits_ne_nil
      | cons c rest => rwa [hdigits] at hhead

/-- The decimal digits of a number are an integer without superfluous zeros. -/
theorem isInteger_toDigits (n : Nat) : isInteger (Nat.toDigits 10 n) = true := by
  by_cases hn : n = 0
  · subst hn
    rw [Nat.toDigits_zero]
    rfl
  · have hhead := head_toDigits_ne_zero (Nat.pos_of_ne_zero hn)
    unfold isInteger
    split
    · next hnil => exact absurd hnil Nat.toDigits_ne_nil
    · next hzero => exact absurd (by rw [hzero]; rfl) hhead
    · rw [List.all_eq_true]
      exact fun c hc => Nat.isDigit_of_mem_toDigits (by decide) (by decide) hc

/-- The decimal digits of a number have its value. -/
theorem decimalValue_toDigits (n : Nat) : decimalValue (Nat.toDigits 10 n) = n := by
  rw [decimalValue, ← Nat.ofDigitChars_eq_foldl, Nat.ofDigitChars_ten_toDigits]

/-- A number is lexed in front of a boundary. -/
theorem lexFrom_natural (n : Nat) {rest : List Char} (hrest : Boundary rest) (found : List Token) :
    lexFrom .between found ((toString n).toList ++ rest) =
      lexFrom .between (.natural n :: found) rest := by
  have hdigit : ∀ c ∈ Nat.toDigits 10 n, c.isDigit := fun c hc =>
    Nat.isDigit_of_mem_toDigits (by decide) (by decide) hc
  rw [Nat.toString_eq_ofList_toDigits, String.toList_ofList]
  have htoken : numberToken? (Nat.toDigits 10 n) = some (.natural n) := by
    unfold numberToken?
    rw [if_pos (isInteger_toDigits n), decimalValue_toDigits]
  cases hdigits : Nat.toDigits 10 n with
  | nil => exact absurd hdigits Nat.toDigits_ne_nil
  | cons c digits =>
    rw [hdigits] at hdigit htoken
    have hstep : lexStep .between c = some (.number [c], []) :=
      lexBetween_of_isDigit (hdigit c (List.mem_cons_self ..))
    have hlexes := Lexes.append (.step hstep) (lexes_gather .number [c] fun d hd g => by
      rw [lexStep, if_pos (isNumberChar_of_isDigit (hdigit d (List.mem_cons_of_mem _ hd)))])
    rw [← List.singleton_append, hlexes found rest]
    refine lexFrom_number ?_ hrest found
    simpa using htoken

/-! ### Strings -/

/-- A part of a literal that stands for a character. -/
def LiteralPart.Means (part : LiteralPart) (c : Char) : Prop :=
  ∀ found rest, literalFrom found (part :: rest) = literalFrom (c :: found) rest

theorem LiteralPart.Means.char (c : Char) : (LiteralPart.char c).Means c := fun _ _ => rfl

/-- A control character may be given by its number. -/
theorem LiteralPart.Means.unit {c : Char} (h : c.toNat < 0x20) :
    (LiteralPart.unit c.toNat).Means c := by
  intro found rest
  have hhigh : isHighSurrogate c.toNat = false := by simp [isHighSurrogate]; omega
  have hlow : isLowSurrogate c.toNat = false := by simp [isLowSurrogate]; omega
  rw [literalFrom.eq_def found]
  simp only [hhigh, hlow, Bool.false_eq_true, if_false, Char.ofNat_toNat]

/-- A backslash and a letter stand for one character. -/
theorem lexes_escape (parts : List LiteralPart) {letter c : Char} (hletter : letter ≠ 'u')
    (h : escapedChar? letter = some c) :
    Lexes (.string parts) ['\\', letter] (.string (.char c :: parts)) [] := by
  have hslash : lexStep (.string parts) '\\' = some (.escape parts, []) := rfl
  have hstep : lexStep (.escape parts) letter = some (.string (.char c :: parts), []) := by
    rw [lexStep, h, beq_false_of_ne hletter]
    rfl
  exact Lexes.append (.step hslash) (.step hstep)

/-- An escape with four digits, of which only the last two can be other than zero, stands for a
small number. -/
theorem lexes_unicodeEscape (parts : List LiteralPart) {n : Nat} (h : n < 0x20) :
    Lexes (.string parts) ("\\u" ++ hexNumeral 4 n).toList (.string (.unit n :: parts)) [] := by
  have hnumeral : ∀ n < 0x20, (hexNumeral 4 n).toList =
      ['0', '0', Hex.digit (n / 16), Hex.digit (n % 16)] := by decide
  have hdigit (missing value : Nat) {d : Nat} (hd : d < 16) (hmissing : 1 < missing) :
      lexStep (.digits parts missing value) (Hex.digit d) =
        some (.digits parts (missing - 1) (16 * value + d), []) := by
    rw [lexStep, Hex.digitValue?_digit d hd, Option.map_some, if_neg (Nat.not_le.mpr hmissing)]
  have hlast (value : Nat) {d : Nat} (hd : d < 16) :
      lexStep (.digits parts 1 value) (Hex.digit d) =
        some (.string (.unit (16 * value + d) :: parts), []) := by
    rw [lexStep, Hex.digitValue?_digit d hd, Option.map_some, if_pos (Nat.le_refl 1)]
  have hslash : lexStep (.string parts) '\\' = some (.escape parts, []) := rfl
  have hu : lexStep (.escape parts) 'u' = some (.digits parts 4 0, []) := rfl
  have hvalue : 16 * (n / 16) + n % 16 = n := Nat.div_add_mod n 16
  have hrun := Lexes.append (.step hslash) <| Lexes.append (.step hu) <|
    Lexes.append (.step (hdigit 4 0 (show 0 < 16 by decide) (by decide))) <|
    Lexes.append (.step (hdigit 3 0 (show 0 < 16 by decide) (by decide))) <|
    Lexes.append (.step (hdigit 2 0 (show n / 16 < 16 by omega) (by decide)))
      (.step (hlast (16 * 0 + n / 16) (show n % 16 < 16 by omega)))
  rw [Nat.mul_zero, Nat.zero_add, hvalue] at hrun
  rw [String.toList_append, hnumeral n h]
  exact hrun

/-- A quoted character is read as a part of a literal that stands for it. -/
theorem lexes_quoteChar (parts : List LiteralPart) (c : Char) :
    ∃ part, Lexes (.string parts) (quoteChar c).toList (.string (part :: parts)) [] ∧
      part.Means c := by
  have hescape (letter : Char) (hletter : letter ≠ 'u') (h : escapedChar? letter = some c) :
      ∃ part, Lexes (.string parts) ['\\', letter] (.string (part :: parts)) [] ∧ part.Means c :=
    ⟨.char c, lexes_escape parts hletter h, .char c⟩
  unfold quoteChar
  split
  · next h => exact hescape '"' (by decide) (by rw [eq_of_beq h]; rfl)
  split
  · next h => exact hescape '\\' (by decide) (by rw [eq_of_beq h]; rfl)
  split
  · next h => exact hescape 'b' (by decide) (by rw [eq_of_beq h]; rfl)
  split
  · next h => exact hescape 'f' (by decide) (by rw [eq_of_beq h]; rfl)
  split
  · next h => exact hescape 'n' (by decide) (by rw [eq_of_beq h]; rfl)
  split
  · next h => exact hescape 'r' (by decide) (by rw [eq_of_beq h]; rfl)
  split
  · next h => exact hescape 't' (by decide) (by rw [eq_of_beq h]; rfl)
  split
  · next h => exact ⟨.unit c.toNat, lexes_unicodeEscape parts h, .unit h⟩
  · next hquote hslash _ _ _ _ _ hcontrol =>
    have hstep : lexStep (.string parts) c = some (.string (.char c :: parts), []) := by
      rw [lexStep, if_neg hquote, if_neg hslash, if_neg hcontrol]
    rw [String.toList_singleton]
    exact ⟨.char c, .step hstep, .char c⟩

/-- Quoted characters are read as parts of a literal that stand for them. -/
theorem lexes_quoteChars (parts : List LiteralPart) (chars : List Char) :
    ∃ more, Lexes (.string parts) (chars.flatMap fun c => (quoteChar c).toList)
        (.string (more.reverse ++ parts)) [] ∧
      ∀ found, literalFrom found more = some (found.reverse ++ chars) := by
  induction chars generalizing parts with
  | nil => exact ⟨[], .nil _, fun found => by rw [literalFrom, List.append_nil]⟩
  | cons c rest ih =>
    obtain ⟨part, hpart, hmeans⟩ := lexes_quoteChar parts c
    obtain ⟨more, hmore, hliteral⟩ := ih (part :: parts)
    refine ⟨part :: more, ?_, fun found => ?_⟩
    · rw [List.reverse_cons, List.append_assoc]
      exact Lexes.append hpart hmore
    · rw [hmeans, hliteral, List.reverse_cons, List.append_assoc, List.singleton_append]

/-- **A string literal is read as its text.** -/
theorem lexes_quote (text : String) :
    Lexes .between (quote text).toList .between [.string (some text)] := by
  obtain ⟨parts, hlexes, hliteral⟩ := lexes_quoteChars [] text.toList
  have hopen : lexStep .between '"' = some (.string [], []) := rfl
  have hclose : lexStep (.string (parts.reverse ++ [])) '"' =
      some (.between, [.string (some text)]) := by
    have htext : literalText? parts = some text := by
      rw [literalText?, hliteral, List.reverse_nil, List.nil_append, Option.map_some,
        String.ofList_toList]
    rw [lexStep, List.append_nil, List.reverse_reverse, htext]
    rfl
  have hchars : (quote text).toList =
      ['"'] ++ (text.toList.flatMap (fun c => (quoteChar c).toList) ++ ['"']) := by
    rw [quote, String.toList_append, String.toList_append, String.toList_join, List.flatMap_map,
      List.append_assoc]
    rfl
  rw [hchars]
  exact Lexes.append (.step hopen) (Lexes.append hlexes (.step hclose))

/-! ### Values -/

mutual

/-- Whether a value is one that is read back as it is: each number is written with digits only and
each string stands for a text. -/
def Writable : Json → Prop
  | .null | .bool _ | .natural _ => True
  | .number _ => False
  | .string text => text.isSome
  | .array items => ItemsWritable items
  | .object members => MembersWritable members

/-- Whether all items are read back. -/
def ItemsWritable : List Json → Prop
  | [] => True
  | value :: rest => value.Writable ∧ ItemsWritable rest

/-- Whether all keys and values are read back. -/
def MembersWritable : List (Option String × Json) → Prop
  | [] => True
  | (key, value) :: rest => key.isSome ∧ value.Writable ∧ MembersWritable rest

end

theorem itemsWritable_of_forall {items : List Json} (h : ∀ value ∈ items, value.Writable) :
    ItemsWritable items := by
  induction items with
  | nil => trivial
  | cons value rest ih =>
    exact ⟨h value (List.mem_cons_self ..), ih fun v hv => h v (List.mem_cons_of_mem _ hv)⟩

theorem writable_record {members : List (String × Json)} (h : ∀ m ∈ members, m.2.Writable) :
    (record members).Writable := by
  rw [record, Writable]
  induction members with
  | nil => trivial
  | cons m rest ih =>
    exact ⟨rfl, h m (List.mem_cons_self ..), ih fun v hv => h v (List.mem_cons_of_mem _ hv)⟩

mutual

/-- The tokens of a value. -/
def tokens : Json → List Token
  | .null => [.null]
  | .bool value => [.bool value]
  | .natural value => [.natural value]
  | .number text => [.number text]
  | .string text => [.string text]
  | .array items => [.openArray] ++ (itemTokens items ++ [.closeArray])
  | .object members => [.openObject] ++ (memberTokens members ++ [.closeObject])

/-- The tokens of items and the commas between them. -/
def itemTokens : List Json → List Token
  | [] => []
  | [value] => value.tokens
  | value :: rest => value.tokens ++ ([.comma] ++ itemTokens rest)

/-- The tokens of members and the commas between them. -/
def memberTokens : List (Option String × Json) → List Token
  | [] => []
  | [(key, value)] => [.string key, .colon] ++ value.tokens
  | (key, value) :: rest =>
    [.string key, .colon] ++ (value.tokens ++ ([.comma] ++ memberTokens rest))

end

/-- Characters are lexed as tokens in front of a boundary. -/
def LexesValue (chars : List Char) (tokens : List Token) : Prop :=
  ∀ found rest, Boundary rest →
    lexFrom .between found (chars ++ rest) = lexFrom .between (tokens.reverse ++ found) rest

theorem Lexes.value {chars : List Char} {tokens : List Token}
    (h : Lexes .between chars .between tokens) : LexesValue chars tokens :=
  fun found rest _ => h found rest

theorem Lexes.append_value {chars more : List Char} {tokens later : List Token}
    (h : Lexes .between chars .between tokens) (h' : LexesValue more later) :
    LexesValue (chars ++ more) (tokens ++ later) := by
  intro found rest hrest
  rw [List.append_assoc, h, h' _ _ hrest, List.reverse_append, List.append_assoc]

/-- A value ends where something starts that belongs to no word or number. -/
theorem LexesValue.append {c : Char} {chars more : List Char} {tokens later : List Token}
    (h : LexesValue chars tokens) (h' : Lexes .between (c :: more) .between later)
    (hc : c.isLower = false ∧ isNumberChar c = false) :
    Lexes .between (chars ++ c :: more) .between (tokens ++ later) := by
  intro found rest
  have hboundary : Boundary (c :: more ++ rest) := by
    intro d hd
    cases hd
    exact hc
  rw [List.append_assoc, h _ _ hboundary, h', List.reverse_append, List.append_assoc]

/-- A word is lexed as its token. -/
theorem lexesValue_word (c : Char) (letters : List Char) {token : Token}
    (hc : lexStep .between c = some (.word [c], [])) (h : letters.all Char.isLower = true)
    (htoken : wordToken? (c :: letters) = some token) : LexesValue (c :: letters) [token] := by
  intro found rest hrest
  have hlexes := Lexes.append (.step hc) (lexes_gather .word [c] fun d hd g => by
    rw [lexStep, if_pos (List.all_eq_true.mp h d hd)])
  rw [← List.singleton_append, hlexes found rest]
  exact lexFrom_word (by simpa using htoken) hrest found

/-- Blanks are lexed as nothing. -/
theorem lexes_indentation (depth : Nat) :
    Lexes .between (indentation depth).toList .between [] := by
  have hblank : lexStep .between ' ' = some (.between, []) := rfl
  rw [indentation, String.toList_ofList]
  generalize 2 * depth = n
  induction n with
  | zero => exact .nil _
  | succ n ih => exact Lexes.append (.step hblank) ih

/-- Brackets on lines of their own enclose a value. -/
theorem LexesValue.brackets {opening closing : Char} {first last : Token} {chars : List Char}
    {tokens : List Token} (h : LexesValue chars tokens)
    (hopen : lexStep .between opening = some (.between, [first]))
    (hclose : lexStep .between closing = some (.between, [last])) (depth : Nat) :
    LexesValue ([opening, '\n'] ++ (chars ++ '\n' :: ((indentation depth).toList ++ [closing])))
      ([first] ++ (tokens ++ [last])) := by
  have hnewline : lexStep .between '\n' = some (.between, []) := rfl
  have hopened := Lexes.append (.step hopen) (.step hnewline)
  have hclosed := Lexes.append (.step hnewline)
    (Lexes.append (lexes_indentation depth) (.step hclose))
  exact hopened.append_value (h.append hclosed (by decide)).value

/-- A comma and a new line separate two values. -/
theorem LexesValue.comma {chars more : List Char} {tokens later : List Token}
    (h : LexesValue chars tokens) (h' : LexesValue more later) :
    LexesValue (chars ++ [',', '\n'] ++ more) (tokens ++ ([.comma] ++ later)) := by
  have hcomma : lexStep .between ',' = some (.between, [.comma]) := rfl
  have hnewline : lexStep .between '\n' = some (.between, []) := rfl
  have hseparator := Lexes.append (.step hcomma) (.step hnewline)
  rw [← List.append_assoc]
  exact (h.append hseparator (by decide)).append_value h'

/-- A key and a colon stand before the value of a member. -/
theorem LexesValue.member {chars : List Char} {tokens : List Token} (h : LexesValue chars tokens)
    (depth : Nat) (key : String) :
    LexesValue ((indentation depth).toList ++ (quote key).toList ++ [':', ' '] ++ chars)
      ([.string (some key), .colon] ++ tokens) := by
  have hcolon : lexStep .between ':' = some (.between, [.colon]) := rfl
  have hblank : lexStep .between ' ' = some (.between, []) := rfl
  have hkey := Lexes.append (Lexes.append (lexes_indentation depth) (lexes_quote key))
    (Lexes.append (.step hcolon) (.step hblank))
  exact hkey.append_value h

mutual

/-- **The text of a value is lexed as its tokens.** -/
theorem lexesValue_render (depth : Nat) : ∀ value : Json, value.Writable →
    LexesValue (render depth value).toList value.tokens
  | .null, _ => by
    rw [render]
    exact lexesValue_word 'n' ['u', 'l', 'l'] rfl rfl rfl
  | .bool true, _ => by
    rw [render]
    exact lexesValue_word 't' ['r', 'u', 'e'] rfl rfl rfl
  | .bool false, _ => by
    rw [render]
    exact lexesValue_word 'f' ['a', 'l', 's', 'e'] rfl rfl rfl
  | .natural n, _ => by
    rw [render]
    exact fun found rest hrest => lexFrom_natural n hrest found
  | .string (some text), _ => by
    rw [render]
    exact (lexes_quote text).value
  | .array [], _ => by
    have hopen : lexStep .between '[' = some (.between, [.openArray]) := rfl
    have hclose : lexStep .between ']' = some (.between, [.closeArray]) := rfl
    rw [render]
    exact (Lexes.append (.step hopen) (.step hclose)).value
  | .array (value :: rest), h => by
    have hitems := lexesValue_renderItems (depth + 1) (value :: rest) h
    rw [render]
    · simp only [String.toList_append, List.append_assoc]
      exact hitems.brackets rfl rfl depth
    · simp
  | .object [], _ => by
    have hopen : lexStep .between '\x7b' = some (.between, [.openObject]) := rfl
    have hclose : lexStep .between '\x7d' = some (.between, [.closeObject]) := rfl
    rw [render]
    exact (Lexes.append (.step hopen) (.step hclose)).value
  | .object (member :: rest), h => by
    have hmembers := lexesValue_renderMembers (depth + 1) (member :: rest) h
    rw [render]
    · simp only [String.toList_append, List.append_assoc]
      exact hmembers.brackets rfl rfl depth
    · simp

theorem lexesValue_renderItems (depth : Nat) : ∀ items : List Json, ItemsWritable items →
    LexesValue (renderItems depth items).toList (itemTokens items)
  | [], _ => by
    rw [renderItems]
    exact (Lexes.nil .between).value
  | [value], h => by
    have hvalue := lexesValue_render depth value h.1
    rw [renderItems, String.toList_append]
    exact (lexes_indentation depth).append_value hvalue
  | value :: next :: rest, h => by
    have hvalue := (lexes_indentation depth).append_value (lexesValue_render depth value h.1)
    have hrest := lexesValue_renderItems depth (next :: rest) h.2
    rw [renderItems, String.toList_append, String.toList_append, String.toList_append]
    · exact hvalue.comma hrest
    · simp

theorem lexesValue_renderMembers (depth : Nat) :
    ∀ members : List (Option String × Json), MembersWritable members →
      LexesValue (renderMembers depth members).toList (memberTokens members)
  | [], _ => by
    rw [renderMembers]
    exact (Lexes.nil .between).value
  | [(some key, value)], h => by
    have hvalue := lexesValue_render depth value h.2.1
    rw [renderMembers, String.toList_append, String.toList_append, String.toList_append]
    exact hvalue.member depth key
  | (some key, value) :: next :: rest, h => by
    have hvalue := (lexesValue_render depth value h.2.1).member depth key
    have hrest := lexesValue_renderMembers depth (next :: rest) h.2.2
    rw [renderMembers, String.toList_append, String.toList_append, String.toList_append,
      String.toList_append, String.toList_append]
    · exact hvalue.comma hrest
    · simp

end

/-- A document is lexed as the tokens of its value. -/
theorem lex?_pretty {value : Json} (h : value.Writable) :
    lex? value.pretty = some value.tokens := by
  have hlexes := lexesValue_render 0 value h [] [] boundary_nil
  rw [List.append_nil, List.append_nil] at hlexes
  rw [lex?, pretty, hlexes, lexFrom, lexEnd, Option.map_some, List.nil_append, List.reverse_reverse]

end LpcInspect.Json
