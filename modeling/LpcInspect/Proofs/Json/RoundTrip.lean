import LpcInspect.Json.Parser
import LpcInspect.Proofs.Json.Lexing

/-!
# Documents are read back

The reader works on tokens with a stack of the arrays and objects that are still open. From any
stack, the tokens of a value bring the reader to where that value is complete, so the document of a
value is read as the value.
-/

namespace LpcInspect.Json

theorem readTokens_cons {state next : ReadState} {token : Token}
    (h : readToken state token = some next) (rest : List Token) :
    readTokens state (token :: rest) = readTokens next rest := by
  rw [readTokens, h]

/-- Where an array may still be empty, an item is read as anywhere. -/
theorem readTokens_firstItem (value : Json) (items : List Json) (outer : List Open)
    (rest : List Token) :
    readTokens (.inside (.array [] :: outer) .firstItem) (itemTokens (value :: items) ++ rest) =
      readTokens (.inside (.array [] :: outer) .value) (itemTokens (value :: items) ++ rest) := by
  have hvalue (more : List Token) :
      readTokens (.inside (.array [] :: outer) .firstItem) (value.tokens ++ more) =
        readTokens (.inside (.array [] :: outer) .value) (value.tokens ++ more) := by
    cases value <;> rfl
  cases items with
  | nil => exact hvalue rest
  | cons next items => simp only [itemTokens, List.append_assoc, hvalue]

/-- Where an object may still be empty, a key is read as anywhere. -/
theorem readTokens_firstKey (member : Option String × Json) (members : List (Option String × Json))
    (outer : List Open) (rest : List Token) :
    readTokens (.inside (.object [] none :: outer) .firstKey)
        (memberTokens (member :: members) ++ rest) =
      readTokens (.inside (.object [] none :: outer) .key)
        (memberTokens (member :: members) ++ rest) := by
  cases members <;> rfl

/-- A key and a colon stand before the value of a member. -/
theorem readTokens_key (found : List (Option String × Json)) (last key : Option String)
    (outer : List Open) (rest : List Token) :
    readTokens (.inside (.object found last :: outer) .key) ([.string key, .colon] ++ rest) =
      readTokens (.inside (.object found key :: outer) .value) rest := rfl

mutual

/-- **The tokens of a value complete it**, whatever arrays and objects are open. -/
theorem readTokens_value (opened : List Open) (rest : List Token) : ∀ value : Json,
    readTokens (.inside opened .value) (value.tokens ++ rest) =
      readTokens (complete value opened) rest
  | .null | .bool _ | .natural _ | .number _ | .string _ => rfl
  | .array [] => rfl
  | .array (value :: items) => by
    have hitems := readTokens_items [] opened rest (value :: items) (List.cons_ne_nil _ _)
    have hopen : readToken (.inside opened .value) .openArray =
        some (.inside (.array [] :: opened) .firstItem) := rfl
    -- Only the first item is read in a state in which the array may end instead.
    rw [tokens, List.append_assoc, List.append_assoc, List.singleton_append,
      readTokens_cons hopen, readTokens_firstItem]
    exact hitems
  | .object [] => rfl
  | .object (member :: members) => by
    have hmembers := readTokens_members [] none opened rest (member :: members)
      (List.cons_ne_nil _ _)
    have hopen : readToken (.inside opened .value) .openObject =
        some (.inside (.object [] none :: opened) .firstKey) := rfl
    rw [tokens, List.append_assoc, List.append_assoc, List.singleton_append,
      readTokens_cons hopen, readTokens_firstKey]
    exact hmembers

/-- The tokens of items and the end of their array. -/
theorem readTokens_items (found : List Json) (outer : List Open) (rest : List Token) :
    ∀ items : List Json, items ≠ [] →
      readTokens (.inside (.array found :: outer) .value)
          (itemTokens items ++ (.closeArray :: rest)) =
        readTokens (complete (.array (found.reverse ++ items)) outer) rest
  | [], h => absurd rfl h
  | [value], _ => by
    have hclose : readToken (complete value (.array found :: outer)) .closeArray =
        some (complete (.array (value :: found).reverse) outer) := rfl
    rw [itemTokens, readTokens_value, readTokens_cons hclose, List.reverse_cons]
  | value :: next :: items, _ => by
    have hcomma : readToken (complete value (.array found :: outer)) .comma =
        some (.inside (.array (value :: found) :: outer) .value) := rfl
    have hrest := readTokens_items (value :: found) outer rest (next :: items)
      (List.cons_ne_nil _ _)
    rw [itemTokens, List.append_assoc, readTokens_value, List.append_assoc, List.singleton_append,
      readTokens_cons hcomma, hrest, List.reverse_cons, List.append_assoc, List.singleton_append]
    simp

/-- The tokens of members and the end of their object. -/
theorem readTokens_members (found : List (Option String × Json)) (last : Option String)
    (outer : List Open) (rest : List Token) :
    ∀ members : List (Option String × Json), members ≠ [] →
      readTokens (.inside (.object found last :: outer) .key)
          (memberTokens members ++ (.closeObject :: rest)) =
        readTokens (complete (.object (found.reverse ++ members)) outer) rest
  | [], h => absurd rfl h
  | [(key, value)], _ => by
    have hclose : readToken (complete value (.object found key :: outer)) .closeObject =
        some (complete (.object ((key, value) :: found).reverse) outer) := rfl
    rw [memberTokens, List.append_assoc, readTokens_key, readTokens_value, readTokens_cons hclose,
      List.reverse_cons]
  | (key, value) :: next :: members, _ => by
    have hcomma : readToken (complete value (.object found key :: outer)) .comma =
        some (.inside (.object ((key, value) :: found) key :: outer) .key) := rfl
    have hrest := readTokens_members ((key, value) :: found) key outer rest (next :: members)
      (List.cons_ne_nil _ _)
    rw [memberTokens, List.append_assoc, readTokens_key, List.append_assoc, readTokens_value,
      List.append_assoc, List.singleton_append, readTokens_cons hcomma, hrest, List.reverse_cons,
      List.append_assoc, List.singleton_append]
    simp

end

/-- **The document of a value is read as the value.** -/
theorem parse?_pretty {value : Json} (h : value.Writable) : parse? value.pretty = some value := by
  have hread := readTokens_value [] [] value
  rw [List.append_nil] at hread
  rw [parse?, lex?_pretty h, Option.bind_some, ofTokens?, hread]
  rfl

end LpcInspect.Json
