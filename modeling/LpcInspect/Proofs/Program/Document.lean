import LpcInspect.Program.Document
import LpcInspect.Proofs.Json.Record
import LpcInspect.Proofs.Json.RoundTrip
import LpcInspect.Proofs.Text.Utf8

/-!
# Program documents are read back

The document of a program is read as the program itself as long as no chain of ancestors is too
long: each ancestor lies three arrays and objects deeper than the program that links to it, and a
document nests only so far. A program with a longer chain has a document that is not read at all.
-/

namespace LpcInspect

/-! ### Parts of a document -/

theorem Json.text?_text (s : String) : Json.text? (.text s) = some s := rfl

theorem Json.nullable_text {α : Type} (read? : Json → Option α) (s : String) :
    Json.nullable read? (.text s) = (read? (.text s)).map some := rfl

theorem Json.hexBytes?_encode (code : Array UInt8) :
    Json.hexBytes? (.text (Hex.encode code.toList)) = some code := by
  rw [Json.hexBytes?, Json.text, Json.text?, Option.bind_some, Hex.decode?_trimBlanks_encode]
  rfl

/-- A stored string is read back, whether it is a text or not. -/
theorem Json.byteString?_ofByteString {nesting : Nat} (hnesting : 0 < nesting) (bytes : Bytes) :
    Json.byteString? nesting (.ofByteString bytes) = some bytes := by
  unfold Json.ofByteString
  split
  · next text htext =>
    rw [Json.text, Json.byteString?, Option.map_some, Utf8.encode_of_decode? htext]
  · exact Json.list?_map hnesting fun b _ => Json.uint8?_natural b

/-- A function slot is read back. -/
theorem FunctionEntry.ofJson?_toJson {nesting : Nat} (hnesting : 0 < nesting) (f : FunctionEntry) :
    ofJson? nesting f.toJson = some f := by
  have hnames : ["name", "flags", "num_args", "num_locals", "address", "alias_of"].Nodup := by
    decide
  rw [ofJson?, toJson, Json.fields?_record hnesting hnames rfl]
  simp only [List.map_cons, List.map_nil, Option.bind_eq_bind, Option.bind_some, Json.optional,
    Json.text, Json.text?, Json.uint16?_natural, Json.uint8?_natural]
  rcases f with ⟨name, flags, argCount, localCount, address, _ | target⟩
  · rfl
  · simp only [Json.nullable, Json.uint16?_natural, Option.map_some, Option.bind_some]
    rfl

/-- A class is read back. -/
theorem ClassDef.ofJson?_toJson {nesting : Nat} (hnesting : 0 < nesting) (c : ClassDef) :
    ofJson? nesting c.toJson = some c := by
  have hnames : ["name"].Nodup := by decide
  rw [ofJson?, toJson, Json.fields?_record hnesting hnames rfl]
  simp only [List.map_cons, List.map_nil, Option.bind_eq_bind, Option.bind_some, Json.required,
    Json.uint16?_natural]
  rfl

/-! ### Links -/

/-- A link as a value. -/
def Inherit.toJson (link : Inherit Program) : Json := .record [
  ("program", link.program.toJson),
  ("function_index_offset", .natural link.functionOffset.toNat),
  ("variable_index_offset", .natural link.variableOffset.toNat)]

/-- What is read of a link depends on what is read of its ancestor. -/
theorem Inherit.ofJson?_toJson {nesting : Nat} (hnesting : 0 < nesting)
    (ancestor? : Json → Option Program) (link : Inherit Program) :
    ofJson? nesting ancestor? link.toJson =
      (ancestor? link.program.toJson).map fun program => { link with program } := by
  have hnames : ["program", "function_index_offset", "variable_index_offset"].Nodup := by decide
  rw [ofJson?, toJson, Json.fields?_record hnesting hnames rfl]
  simp only [List.map_cons, List.map_nil, Option.bind_eq_bind, Option.bind_some, Json.required,
    Json.uint16?_natural]
  cases ancestor? link.program.toJson <;> rfl

/-- A link is not read without nesting, nor if its ancestor is not. -/
theorem Inherit.ofJson?_eq_none {nesting : Nat} {ancestor? : Json → Option Program}
    {link : Inherit Program} (h : nesting = 0 ∨ ancestor? link.program.toJson = none) :
    ofJson? nesting ancestor? link.toJson = none := by
  by_cases hnesting : nesting = 0
  · rw [ofJson?, hnesting, Json.fields?_zero]
    rfl
  · rw [ofJson?_toJson (Nat.pos_of_ne_zero hnesting), h.resolve_left hnesting, Option.map_none]

theorem Program.linksToJson_eq_map (links : List (Inherit Program)) :
    linksToJson links = links.map Inherit.toJson := by
  induction links with
  | nil => rw [linksToJson, List.map_nil]
  | cons link rest ih => rw [linksToJson, ih, List.map_cons, Inherit.toJson]

/-! ### Programs -/

namespace Program

/-- A program as a value, by its fields. -/
theorem toJson_eq (p : Program) : p.toJson = .record [
    ("filename", .text p.filename),
    ("byte_code", .text (Hex.encode p.code.toList)),
    ("inherits", .array (p.inherits.map Inherit.toJson)),
    ("functions", .array (p.functions.map FunctionEntry.toJson)),
    ("last_inherited", .natural p.lastInherited.toNat),
    ("variables", .array (p.globals.map Json.text)),
    ("strings", .array (p.strings.map Json.ofByteString)),
    ("classes", .array (p.classes.map ClassDef.toJson)),
    ("line_info", match p.lineInfo with
      | some bytes => .text (Hex.encode bytes.toList)
      | none => .null)] := by
  rcases p with
    ⟨filename, code, inherits, functions, lastInherited, globals, strings, classes, _ | _⟩ <;>
    rw [toJson, linksToJson_eq_map]

/-- With enough nesting for its own fields, a program is read back as soon as its links are. -/
theorem ofJsonWith?_toJson {nesting : Nat} (hnesting : 3 ≤ nesting)
    {ancestor? : Json → Option Program} (p : Program)
    (h : ∀ link ∈ p.inherits, ancestor? link.program.toJson = some link.program) :
    ofJsonWith? nesting ancestor? p.toJson = some p := by
  have hnames : fieldNames.Nodup := by decide
  have hlinks : Json.list? (nesting - 1) (Inherit.ofJson? (nesting - 2) ancestor?)
      (.array (p.inherits.map Inherit.toJson)) = some p.inherits := by
    apply Json.list?_map (by omega)
    intro link hlink
    rw [Inherit.ofJson?_toJson (by omega), h link hlink]
    rfl
  have hfunctions : Json.list? (nesting - 1) (FunctionEntry.ofJson? (nesting - 2))
      (.array (p.functions.map FunctionEntry.toJson)) = some p.functions :=
    Json.list?_map (by omega) fun f _ => FunctionEntry.ofJson?_toJson (by omega) f
  have hglobals : Json.list? (nesting - 1) Json.text? (.array (p.globals.map Json.text)) =
      some p.globals := Json.list?_map (by omega) fun _ _ => rfl
  have hstrings : Json.list? (nesting - 1) (Json.byteString? (nesting - 2))
      (.array (p.strings.map Json.ofByteString)) = some p.strings :=
    Json.list?_map (by omega) fun bytes _ => Json.byteString?_ofByteString (by omega) bytes
  have hclasses : Json.list? (nesting - 1) (ClassDef.ofJson? (nesting - 2))
      (.array (p.classes.map ClassDef.toJson)) = some p.classes :=
    Json.list?_map (by omega) fun c _ => ClassDef.ofJson?_toJson (by omega) c
  rw [ofJsonWith?, toJson_eq, Json.fields?_record (by omega) hnames rfl]
  simp only [List.map_cons, List.map_nil, Option.bind_eq_bind, Option.bind_some, Json.optional,
    Json.text?_text, Json.hexBytes?_encode, hlinks, hfunctions, hglobals, hstrings, hclasses,
    Json.uint16?_natural]
  rcases p with
    ⟨filename, code, inherits, functions, lastInherited, globals, strings, classes, _ | bytes⟩
  · rfl
  · simp only [Json.nullable_text, Json.hexBytes?_encode, Option.map_some, Option.bind_some]
    rfl

/-- A program whose links cannot be read cannot be read. -/
theorem ofJsonWith?_eq_none {nesting : Nat} {ancestor? : Json → Option Program} (p : Program)
    (h : Json.list? (nesting - 1) (Inherit.ofJson? (nesting - 2) ancestor?)
      (.array (p.inherits.map Inherit.toJson)) = none) :
    ofJsonWith? nesting ancestor? p.toJson = none := by
  have hnames : fieldNames.Nodup := by decide
  by_cases hnesting : nesting = 0
  · rw [ofJsonWith?, hnesting, Json.fields?_zero]
    rfl
  · rw [ofJsonWith?, toJson_eq, Json.fields?_record (Nat.pos_of_ne_zero hnesting) hnames rfl]
    simp only [List.map_cons, List.map_nil, Option.bind_eq_bind, Option.bind_some, Json.optional,
      Json.text?_text, Json.hexBytes?_encode, h, Option.bind_none]

/-- A chain of links of a given length that starts at a program. -/
inductive Chain : Program → Nat → Prop where
  | nil (p : Program) : Chain p 0
  | cons {p : Program} {link : Inherit Program} {n : Nat} (hlink : link ∈ p.inherits)
      (hchain : Chain link.program n) : Chain p (n + 1)

/-- An ancestor is read with the nesting that is left three deeper, if there is any. -/
theorem ofJson?_eq (nesting : Nat) (value : Json) :
    ofJson? nesting value = ofJsonWith? nesting
      (fun ancestor => if 3 ≤ nesting then ofJson? (nesting - 3) ancestor else none) value := by
  by_cases h : 3 ≤ nesting
  · obtain ⟨m, rfl⟩ : ∃ m, nesting = m + 3 := ⟨nesting - 3, by omega⟩
    simp only [h, if_true, Nat.add_sub_cancel, ofJson?]
  · simp only [h, if_false]
    rw [ofJson?]
    intro m hm
    omega

/-- A program is read back if there is nesting for its longest chain. -/
theorem ofJson?_toJson_of_chain_le {k nesting : Nat} (hnesting : 3 * k + 3 ≤ nesting) {p : Program}
    (hp : ∀ n, p.Chain n → n ≤ k) : ofJson? nesting p.toJson = some p := by
  induction k generalizing nesting p with
  | zero =>
    rw [ofJson?_eq]
    apply ofJsonWith?_toJson hnesting
    intro link hlink
    exact absurd (hp 1 (.cons hlink (.nil _))) (by decide)
  | succ k ih =>
    rw [ofJson?_eq]
    apply ofJsonWith?_toJson (by omega)
    intro link hlink
    rw [if_pos (by omega)]
    exact ih (by omega) fun n hn => Nat.le_of_succ_le_succ (hp (n + 1) (.cons hlink hn))

/-- A program is not read if there is too little nesting for one of its chains. -/
theorem ofJson?_toJson_of_chain {nesting n : Nat} {p : Program} (hp : p.Chain n)
    (hnesting : nesting < 3 * n + 2) : ofJson? nesting p.toJson = none := by
  induction hp generalizing nesting with
  | nil p =>
    -- The list of links is written even if it is empty, and it can no longer be entered.
    have hleft : nesting - 1 = 0 := by omega
    rw [ofJson?_eq]
    apply ofJsonWith?_eq_none
    rw [hleft, Json.list?_zero]
  | cons hlink hchain ih =>
    rw [ofJson?_eq]
    apply ofJsonWith?_eq_none
    apply Json.list?_eq_none hlink
    apply Inherit.ofJson?_eq_none
    by_cases h : 3 ≤ nesting
    · right
      rw [if_pos h]
      exact ih (by omega)
    · left
      omega

end Program

/-! ### Documents -/

theorem Json.writable_text (s : String) : (Json.text s).Writable := rfl

theorem Json.writable_ofByteString (bytes : Bytes) : (Json.ofByteString bytes).Writable := by
  unfold Json.ofByteString
  split
  · rfl
  · refine Json.itemsWritable_of_forall fun value hvalue => ?_
    obtain ⟨b, -, rfl⟩ := List.mem_map.mp hvalue
    trivial

theorem FunctionEntry.writable_toJson (f : FunctionEntry) : f.toJson.Writable := by
  apply Json.writable_record
  rcases f with ⟨name, flags, argCount, localCount, address, _ | target⟩ <;>
    simp [Json.text, Json.Writable]

theorem ClassDef.writable_toJson (c : ClassDef) : c.toJson.Writable := by
  apply Json.writable_record
  simp [Json.Writable]

namespace Program

/-- A list of values of the same kind is read back if each of them is. -/
theorem writable_map {α : Type} {write : α → Json} (h : ∀ x, (write x).Writable) (xs : List α) :
    (Json.array (xs.map write)).Writable := by
  refine Json.itemsWritable_of_forall fun value hvalue => ?_
  obtain ⟨x, -, rfl⟩ := List.mem_map.mp hvalue
  exact h x

mutual

/-- Everything in the value of a program is read back. -/
theorem writable_toJson : ∀ p : Program, p.toJson.Writable
  | ⟨filename, code, inherits, functions, lastInherited, globals, strings, classes, lineInfo⟩ => by
    have hlinks : (Json.array (inherits.map Inherit.toJson)).Writable := by
      rw [← linksToJson_eq_map]
      exact itemsWritable_linksToJson inherits
    rw [toJson_eq]
    apply Json.writable_record
    simp only [List.forall_mem_cons]
    refine ⟨Json.writable_text _, Json.writable_text _, hlinks,
      writable_map FunctionEntry.writable_toJson functions, trivial,
      writable_map Json.writable_text globals, writable_map Json.writable_ofByteString strings,
      writable_map ClassDef.writable_toJson classes, ?_, by simp⟩
    cases lineInfo with
    | none => trivial
    | some bytes => exact Json.writable_text _

theorem itemsWritable_linksToJson : ∀ links : List (Inherit Program),
    Json.ItemsWritable (linksToJson links)
  | [] => by
    rw [linksToJson]
    trivial
  | ⟨program, functionOffset, variableOffset⟩ :: rest => by
    have hprogram := writable_toJson program
    have hrest := itemsWritable_linksToJson rest
    rw [linksToJson]
    refine ⟨Json.writable_record ?_, hrest⟩
    simp only [List.forall_mem_cons]
    exact ⟨hprogram, trivial, trivial, by simp⟩

end

theorem parse?_document_eq (p : Program) :
    parse? p.document = ofJson? documentNesting p.toJson := by
  rw [parse?, document, Json.parse?_pretty p.writable_toJson, Option.bind_some]

/-- **Documents are read back** if no chain of links is longer than 41, and then loaded exactly if
the program is consistent. -/
theorem load_document (p : Program) :
    ((∀ n, p.Chain n → n ≤ 41) →
      parse? p.document = some p ∧ (load p.document = .ok p ↔ p.fault? = none) ∧
        ∀ fault, p.fault? = some fault → load p.document = .error (.invalid fault)) ∧
      ∀ n, 41 < n → p.Chain n →
        parse? p.document = none ∧ load p.document = .error .malformed := by
  constructor
  · intro hp
    have hparse : parse? p.document = some p := by
      rw [parse?_document_eq]
      exact ofJson?_toJson_of_chain_le (by decide) hp
    have hload : load p.document = p.verified := by rw [load, hparse]
    refine ⟨hparse, ?_, ?_⟩
    · rw [hload, verified]
      cases p.fault? <;> simp
    · intro fault hfault
      rw [hload, verified, hfault]
  · intro n hn hp
    have hparse : parse? p.document = none := by
      rw [parse?_document_eq]
      exact ofJson?_toJson_of_chain hp (by simp only [documentNesting]; omega)
    exact ⟨hparse, by rw [load, hparse]⟩

/-- A program with a number of ancestors above one another. The last one has names and strings that
are not written as they stand. -/
def tower : Nat → Program
  | 0 => {
      filename := "/\x01\"é"
      code := #[0xff]
      strings := [[0xc3, 0xa9], [0xc3]]
      lineInfo := some #[] }
  | n + 1 => { inherits := [⟨tower n, 0, 0⟩] }

theorem chain_tower (k : Nat) : (tower k).Chain k := by
  induction k with
  | zero => exact .nil _
  | succ k ih => exact .cons (List.mem_singleton_self _) ih

theorem le_of_chain_tower {k n : Nat} (h : (tower k).Chain n) : n ≤ k := by
  induction k generalizing n with
  | zero =>
    cases h with
    | nil => exact Nat.le_refl 0
    | cons hlink _ => cases hlink
  | succ k ih =>
    cases h with
    | nil => exact Nat.zero_le _
    | cons hlink hchain =>
      rw [List.mem_singleton.mp hlink] at hchain
      exact Nat.succ_le_succ (ih hchain)

theorem load_document_tower :
    (∀ n, (tower 41).Chain n → n ≤ 41) ∧ parse? (tower 41).document = some (tower 41) ∧
      (tower 42).Chain 42 ∧ load (tower 42).document = .error .malformed :=
  ⟨fun _ => le_of_chain_tower, ((load_document (tower 41)).1 fun _ => le_of_chain_tower).1,
    chain_tower 42, ((load_document (tower 42)).2 42 (by decide) (chain_tower 42)).2⟩

end Program
end LpcInspect
