import SqlStatement.Json

namespace SqlStatement.Json

/-- What is read from the front of a text, with the text behind it. -/
abbrev Reader (α : Type) := List Char → Option (α × List Char)

/-- A text without the blanks in front of it. -/
def skip (cs : List Char) : List Char := cs.dropWhile Char.isWhitespace

/-- What stands for a character behind a backslash. -/
def escapes : List (Char × Char) :=
  [('"', '"'), ('\\', '\\'), ('n', '\n'), ('r', '\r'), ('t', '\t'), ('b', '\x08'), ('f', '\x0c')]

/-- The value of a hexadecimal digit, found among those that are written. -/
def hexValue? (c : Char) : Option Nat := (List.range 16).find? (hexDigit · == c)

/-- The characters up to a quote. -/
def readQuoted? : Reader (List Char)
  | [] => none
  | '"' :: cs => some ([], cs)
  | '\\' :: 'u' :: '0' :: '0' :: high :: low :: cs => do
    let high ← hexValue? high
    let low ← hexValue? low
    let (text, rest) ← readQuoted? cs
    some (Char.ofNat (16 * high + low) :: text, rest)
  | '\\' :: letter :: cs => do
    let c ← escapes.lookup letter
    let (text, rest) ← readQuoted? cs
    some (c :: text, rest)
  | c :: cs => do
    let (text, rest) ← readQuoted? cs
    some (c :: text, rest)

/-- As many digits as there are, and at least one. -/
def readNumber? : Reader Nat := fun cs =>
  match cs.takeWhile Char.isDigit with
  | [] => none
  | digits => some (Nat.ofDigitChars 10 digits 0, cs.dropWhile Char.isDigit)

/-- At least one item, with commas between them and the given character behind
    them. -/
def readRow? {α : Type} (read? : Reader α) (close : Char) : Nat → Reader (List α)
  | 0, _ => none
  | fuel + 1, cs => do
    let (item, cs) ← read? cs
    match skip cs with
    | ',' :: cs => do
      let (items, cs) ← readRow? read? close fuel cs
      some (item :: items, cs)
    | c :: cs => if c == close then some ([item], cs) else none
    | [] => none

/-- A quoted name and a value behind a colon. -/
def readField? (read? : Reader Json) : Reader (String × Json) := fun cs =>
  match skip cs with
  | '"' :: cs => do
    let (name, cs) ← readQuoted? cs
    match cs with
    | ':' :: cs => do
      let (value, cs) ← read? cs
      some ((String.ofList name, value), cs)
    | _ => none
  | _ => none

/-- A document at the front of a text. The reader goes over the text from the front,
    and as much fuel as there are characters is enough for it. -/
def read? : Nat → Reader Json
  | 0, _ => none
  | fuel + 1, cs =>
    match skip cs with
    | 'n' :: 'u' :: 'l' :: 'l' :: cs => some (.null, cs)
    | 't' :: 'r' :: 'u' :: 'e' :: cs => some (.bool true, cs)
    | 'f' :: 'a' :: 'l' :: 's' :: 'e' :: cs => some (.bool false, cs)
    | '"' :: cs => (readQuoted? cs).map fun (text, cs) => (.string (String.ofList text), cs)
    | '[' :: ']' :: cs => some (.array [], cs)
    | '[' :: cs => (readRow? (read? fuel) ']' fuel cs).map fun (items, cs) => (.array items, cs)
    | '\x7b' :: '\x7d' :: cs => some (.object [], cs)
    | '\x7b' :: cs =>
      (readRow? (readField? (read? fuel)) '\x7d' fuel cs).map
        fun (fields, cs) => (.object fields, cs)
    | cs => (readNumber? cs).map fun (n, cs) => (.number n, cs)

/-- The document that a text is. -/
def parse? (text : String) : Option Json :=
  match read? (text.length + 1) text.toList with
  | some (j, []) => some j
  | _ => none

/-- No number can go on in the text. -/
def Ends (rest : List Char) : Prop := ∀ c ∈ rest.head?, c.isDigit = false

/-- A reader takes a text for what it stands for, whatever is behind it. -/
def Reads {α : Type} (read? : Reader α) (text : List Char) (a : α) : Prop :=
  ∀ rest, Ends rest → read? (text ++ rest) = some (a, rest)

/-- The line end between items, with the blanks that indent the next line, is
    skipped. -/
theorem skip_newline (depth : Nat) (cs : List Char) :
    skip ((newline depth).toList ++ cs) = skip cs := by
  refine List.dropWhile_append_of_pos fun c hc => ?_
  simp only [newline, String.toList_append, String.toList_ofList, List.mem_append,
    List.mem_replicate] at hc
  rcases hc with hnewline | ⟨-, rfl⟩
  · obtain rfl : c = '\n' := List.mem_singleton.mp hnewline
    rfl
  · rfl

/-- A digit is read as the value that it was written for. -/
theorem hexValue?_hexDigit {n : Nat} (h : n < 16) : hexValue? (hexDigit n) = some n := by
  have hall : ∀ n < 16, hexValue? (hexDigit n) = some n := by decide
  exact hall n h

/-- A character that is neither a quote nor a backslash is read as itself. So the
    text goes on behind it. -/
theorem readQuoted?_of_ne {c : Char} (hquote : c ≠ '"') (hbackslash : c ≠ '\\') (cs : List Char) :
    readQuoted? (c :: cs) = (readQuoted? cs).map fun (text, rest) => (c :: text, rest) := by
  rw [readQuoted?]
  · cases readQuoted? cs <;> rfl
  · exact hquote
  · exact fun _ _ _ hc => absurd hc hbackslash
  · exact fun _ _ hc => absurd hc hbackslash

/-- A backslash and a letter are read as the character that the letter stands for. -/
theorem readQuoted?_backslash {letter c : Char} (hletter : escapes.lookup letter = some c)
    (cs : List Char) : readQuoted? ('\\' :: letter :: cs) =
      (readQuoted? cs).map fun (text, rest) => (c :: text, rest) := by
  rw [readQuoted?, hletter]
  · cases readQuoted? cs <;> rfl
  · rintro _ _ _ rfl
    cases hletter

/-- A control character is read from its two hexadecimal digits. The two digits in
    front of them are zeros. -/
theorem readQuoted?_hex {high low : Nat} (hhigh : high < 16) (hlow : low < 16) (cs : List Char) :
    readQuoted? ('\\' :: 'u' :: '0' :: '0' :: hexDigit high :: hexDigit low :: cs) =
      (readQuoted? cs).map fun (text, rest) => (Char.ofNat (16 * high + low) :: text, rest) := by
  rw [readQuoted?, hexValue?_hexDigit hhigh, hexValue?_hexDigit hlow]
  cases readQuoted? cs <;> rfl

/-- A character is read from what it is written as, whichever of the three ways that
    is. -/
theorem readQuoted?_escape (c : Char) (cs : List Char) :
    readQuoted? (escape c ++ cs) = (readQuoted? cs).map fun (text, rest) => (c :: text, rest) := by
  unfold escape
  simp only [beq_iff_eq]
  -- The characters with a letter of their own come first.
  iterate 7
    split
    · next h =>
      subst h
      exact readQuoted?_backslash rfl cs
  split
  · next hcontrol =>
    have hchar : Char.ofNat (16 * (c.toNat / 16) + c.toNat % 16) = c := by
      rw [Nat.div_add_mod, Char.ofNat_toNat]
    have hhigh : c.toNat / 16 < 16 := by omega
    have hlow : c.toNat % 16 < 16 := by omega
    have hread := readQuoted?_hex hhigh hlow cs
    rw [hchar] at hread
    exact hread
  · exact readQuoted?_of_ne ‹_› ‹_› cs

/-- A text is read up to the quote behind it. The quotes inside are written with a
    backslash, so none of them ends it. -/
theorem readQuoted?_flatMap_escape (text rest : List Char) :
    readQuoted? (text.flatMap escape ++ '"' :: rest) = some (text, rest) := by
  induction text with
  | nil => rfl
  | cons c text ih =>
    rw [List.flatMap_cons, List.append_assoc, readQuoted?_escape, ih]
    rfl

theorem toList_toString (n : Nat) : (toString n).toList = Nat.toDigits 10 n := by
  rw [Nat.toString_eq_repr, Nat.repr_eq_ofList_toDigits, String.toList_ofList]

theorem isDigit_of_mem_toDigits {n : Nat} {c : Char} (hc : c ∈ Nat.toDigits 10 n) :
    c.isDigit = true :=
  Nat.isDigit_of_mem_toDigits (by decide) (by decide) hc

/-- A number is read back where no further digit follows it. It is written in digits
    without a leading zero, and read digit by digit. -/
theorem reads_number (n : Nat) : Reads readNumber? (toString n).toList n := by
  intro rest hends
  have hdigits : ∀ c ∈ Nat.toDigits 10 n, c.isDigit = true := fun c => isDigit_of_mem_toDigits
  have hrest : rest.takeWhile Char.isDigit = [] ∧ rest.dropWhile Char.isDigit = rest := by
    cases rest with
    | nil => exact ⟨rfl, rfl⟩
    | cons c rest =>
      have hc : c.isDigit = false := hends c rfl
      simp [hc]
  rw [toList_toString, readNumber?, List.takeWhile_append_of_pos hdigits, hrest.1,
    List.dropWhile_append_of_pos hdigits, hrest.2, List.append_nil]
  split
  · next hnil => exact absurd hnil Nat.toDigits_ne_nil
  · rw [Nat.ofDigitChars_ten_toDigits]

section Row

variable {α : Type} {read? : Reader α} {close : Char}

/-- The texts of a row, each behind a comma and a line end. -/
def rowText (depth : Nat) (texts : List (List Char)) : List Char :=
  texts.flatMap fun text => ',' :: (newline depth).toList ++ text

/-- A row may start with a line end if its items may. -/
theorem readRow?_newline {depth : Nat}
    (hskip : ∀ cs, read? ((newline depth).toList ++ cs) = read? cs) (fuel : Nat) (cs : List Char) :
    readRow? read? close fuel ((newline depth).toList ++ cs) = readRow? read? close fuel cs := by
  cases fuel with
  | zero => rfl
  | succ fuel => rw [readRow?, hskip, readRow?]

/-- No number goes on behind a line end. A line end is no digit, which is what ends
    a number. -/
theorem ends_newline (depth : Nat) (cs : List Char) : Ends ((newline depth).toList ++ cs) := by
  intro c hc
  have hhead : ((newline depth).toList ++ cs).head? = some '\n' := by
    simp [newline]
  obtain rfl : '\n' = c := Option.some.inj (hhead.symm.trans hc)
  rfl

/-- Nothing is skipped in front of a character that is no blank. -/
theorem skip_cons {c : Char} (h : c.isWhitespace = false) (cs : List Char) :
    skip (c :: cs) = c :: cs := by
  simp [skip, h]

/-- The last item of a row stands in front of the character that closes it. Blanks
    in front of that character are skipped. -/
theorem readRow?_last {x : α} {cs more rest : List Char} (hread : read? cs = some (x, more))
    (hskip : skip more = close :: rest) (hcomma : close ≠ ',') (fuel : Nat) :
    readRow? read? close (fuel + 1) cs = some ([x], rest) := by
  simp only [readRow?, hread, Option.bind_eq_bind, Option.bind_some, hskip]
  split
  · rfl
  · next h => exact absurd (beq_self_eq_true close) h

/-- Any other item stands in front of a comma, with the rest of the row behind it.
    It takes one unit of the fuel that bounds the length of the row. -/
theorem readRow?_next {x : α} {cs more rest : List Char} (hread : read? cs = some (x, more))
    (hskip : skip more = ',' :: rest) (fuel : Nat) :
    readRow? read? close (fuel + 1) cs =
      (readRow? read? close fuel rest).map fun (items, cs) => (x :: items, cs) := by
  simp only [readRow?, hread, Option.bind_eq_bind, Option.bind_some, hskip]
  cases readRow? read? close fuel rest <;> rfl

/-- A row is read item by item up to the character that closes it, by induction on
    the items. -/
theorem readRow?_rowText (depth outer : Nat) (hcomma : close ≠ ',')
    (hclose : close.isWhitespace = false)
    (hnewline : ∀ cs, read? ((newline depth).toList ++ cs) = read? cs)
    (items : List (List Char × α)) (x : List Char × α) (hx : Reads read? x.1 x.2)
    (hitems : ∀ y ∈ items, Reads read? y.1 y.2) {fuel : Nat} (hfuel : items.length < fuel)
    (rest : List Char) :
    readRow? read? close fuel (x.1 ++ (rowText depth (items.map (·.1)) ++
      ((newline outer).toList ++ close :: rest))) = some ((x :: items).map (·.2), rest) := by
  induction items generalizing x fuel with
  | nil =>
    obtain ⟨fuel, rfl⟩ := Nat.exists_eq_succ_of_ne_zero (Nat.ne_of_gt hfuel)
    refine readRow?_last (hx _ (ends_newline outer _)) ?_ hcomma fuel
    rw [skip_newline, skip_cons hclose]
  | cons y items ih =>
    obtain ⟨fuel, rfl⟩ := Nat.exists_eq_succ_of_ne_zero (Nat.ne_of_gt (Nat.zero_lt_of_lt hfuel))
    obtain ⟨hy, hitems⟩ := List.forall_mem_cons.mp hitems
    have hread := hx (',' :: ((newline depth).toList ++ (y.1 ++ (rowText depth (items.map (·.1)) ++
      ((newline outer).toList ++ close :: rest))))) (fun c hc => by cases hc; rfl)
    have hrest := ih y hy hitems (Nat.lt_of_succ_lt_succ hfuel)
    have htext : rowText depth ((y :: items).map (·.1)) =
        ',' :: ((newline depth).toList ++ (y.1 ++ rowText depth (items.map (·.1)))) := by
      simp [rowText]
    rw [htext, List.cons_append, List.append_assoc, List.append_assoc,
      readRow?_next hread (skip_cons rfl _), readRow?_newline hnewline, hrest]
    rfl

end Row

/-- A row is at least as long as each of its items, and has at least as many
    characters as items. Fuel that is enough for the row is enough for its parts. -/
theorem length_le_rowText (depth : Nat) (texts : List (List Char)) :
    texts.length ≤ (rowText depth texts).length ∧
      ∀ text ∈ texts, text.length ≤ (rowText depth texts).length := by
  induction texts with
  | nil => simp
  | cons first texts ih =>
    obtain ⟨hcount, hlengths⟩ := ih
    have hlength : (rowText depth (first :: texts)).length =
        1 + (newline depth).toList.length + first.length + (rowText depth texts).length := by
      simp [rowText]
      omega
    rw [hlength, List.length_cons, List.forall_mem_cons]
    refine ⟨by omega, by omega, fun text htext => ?_⟩
    have hle := hlengths text htext
    omega

/-- A quoted text is written character by character between two quotes. -/
theorem toList_quote (s : String) :
    (quote s).toList = '"' :: (s.toList.flatMap escape ++ ['"']) := by
  simp [quote]

/-- What a document is written as where it is an item of an array. -/
def itemText (depth : Nat) (item : Json) : List Char := (prettyAt depth item).toList

/-- What a field of an object is written as. -/
def fieldText (depth : Nat) (field : String × Json) : List Char :=
  (quote field.1).toList ++ ':' :: ' ' :: (prettyAt depth field.2).toList

/-- The items of an array are written as a row. -/
theorem toList_prettyItems (depth : Nat) (items : List Json) :
    (prettyItems depth items).toList = rowText depth (items.map (itemText depth)) := by
  induction items with
  | nil => rw [prettyItems]; rfl
  | cons item items ih =>
    rw [prettyItems, String.toList_append, ih]
    simp [rowText, itemText]

/-- So are the fields of an object. -/
theorem toList_prettyFields (depth : Nat) (fields : List (String × Json)) :
    (prettyFields depth fields).toList = rowText depth (fields.map (fieldText depth)) := by
  induction fields with
  | nil => rw [prettyFields]; rfl
  | cons field fields ih =>
    rw [prettyFields, String.toList_append, ih]
    simp [rowText, fieldText]

/-- A document may start with a line end. -/
theorem read?_newline (depth fuel : Nat) (cs : List Char) :
    read? fuel ((newline depth).toList ++ cs) = read? fuel cs := by
  cases fuel with
  | zero => rfl
  | succ fuel => simp only [read?, skip_newline]

theorem readField?_newline (depth : Nat) (reader : Reader Json) (cs : List Char) :
    readField? reader ((newline depth).toList ++ cs) = readField? reader cs := by
  simp only [readField?, skip_newline]

theorem read?_blank (fuel : Nat) (cs : List Char) : read? fuel (' ' :: cs) = read? fuel cs := by
  cases fuel with
  | zero => rfl
  | succ fuel => simp only [read?]; rfl

/-- A field is read where its value is. Its name is quoted, and a colon and a blank
    stand in front of the value. -/
theorem reads_field {depth fuel : Nat} {name : String} {value : Json}
    (h : Reads (read? fuel) (prettyAt depth value).toList value) :
    Reads (readField? (read? fuel)) (fieldText depth (name, value)) (name, value) := by
  intro rest hends
  have htext : fieldText depth (name, value) ++ rest = '"' :: (name.toList.flatMap escape ++
      '"' :: ':' :: ' ' :: ((prettyAt depth value).toList ++ rest)) := by
    simp [fieldText, toList_quote]
  rw [htext, readField?, skip_cons rfl]
  simp [readQuoted?_flatMap_escape, read?_blank, h rest hends]

/-- A row of items or fields is read where each of them is. There is a comma between
    two of them and the closing character behind the last one. The fuel bounds their
    number. -/
theorem readRow?_of_reads {α : Type} {reader : Reader α} {close : Char} (depth : Nat) {fuel : Nat}
    (hcomma : close ≠ ',') (hclose : close.isWhitespace = false)
    (hnewline : ∀ cs, reader ((newline (depth + 1)).toList ++ cs) = reader cs)
    (textOf : α → List Char) {x : α} {xs : List α}
    (hreads : ∀ y ∈ x :: xs, Reads reader (textOf y) y) (hfuel : xs.length < fuel)
    (rest : List Char) :
    readRow? reader close fuel ((newline (depth + 1)).toList ++ (textOf x ++
      (rowText (depth + 1) (xs.map textOf) ++ ((newline depth).toList ++ close :: rest)))) =
      some (x :: xs, rest) := by
  obtain ⟨hx, hxs⟩ := List.forall_mem_cons.mp hreads
  have hrow := readRow?_rowText (depth + 1) depth hcomma hclose hnewline
    (xs.map fun y => (textOf y, y)) (textOf x, x) hx (by simpa using hxs) (by simpa using hfuel)
    rest
  rw [List.map_map, List.map_cons, List.map_map] at hrow
  rw [readRow?_newline hnewline]
  exact hrow.trans (by simp [Function.comp_def])

/-- Induction over a document from the items of arrays and the values of fields. The
    fields carry names, which the induction that comes with the type does not see
    through. -/
theorem forall_of_parts {P : Json → Prop} (null : P .null) (bool : ∀ b, P (.bool b))
    (number : ∀ n, P (.number n)) (string : ∀ s, P (.string s))
    (array : ∀ items, (∀ item ∈ items, P item) → P (.array items))
    (object : ∀ fields : List (String × Json), (∀ field ∈ fields, P field.2) → P (.object fields))
    (j : Json) : P j :=
  @Json.rec P (fun items => ∀ item ∈ items, P item) (fun fields => ∀ field ∈ fields, P field.2)
    (fun field => P field.2) null bool number string array object
    (List.forall_mem_nil _) (fun _ _ hitem hitems => List.forall_mem_cons.mpr ⟨hitem, hitems⟩)
    (List.forall_mem_nil _) (fun _ _ hfield hfields => List.forall_mem_cons.mpr ⟨hfield, hfields⟩)
    (fun _ _ hvalue => hvalue) j

/-- An array with items is written with a row between its brackets. -/
theorem toList_prettyAt_array (depth : Nat) (item : Json) (items : List Json) :
    (prettyAt depth (.array (item :: items))).toList =
      '[' :: ((newline (depth + 1)).toList ++ (itemText (depth + 1) item ++
        (rowText (depth + 1) (items.map (itemText (depth + 1))) ++
          ((newline depth).toList ++ [']'])))) := by
  rw [prettyAt]
  simp [toList_prettyItems, itemText]

/-- An object with fields is written with a row between its braces. The row has one
    level of indentation more than the braces. -/
theorem toList_prettyAt_object (depth : Nat) (field : String × Json)
    (fields : List (String × Json)) :
    (prettyAt depth (.object (field :: fields))).toList =
      '\x7b' :: ((newline (depth + 1)).toList ++ (fieldText (depth + 1) field ++
        (rowText (depth + 1) (fields.map (fieldText (depth + 1))) ++
          ((newline depth).toList ++ ['\x7d'])))) := by
  rw [prettyAt]
  simp [toList_prettyFields, fieldText]

/-- A line end starts with the character for it, so a row is told from an array
    without items. -/
theorem exists_newline_eq (depth : Nat) : ∃ blanks, (newline depth).toList = '\n' :: blanks :=
  ⟨List.replicate (2 * depth) ' ', by simp [newline]⟩

theorem read?_quote (fuel : Nat) (cs : List Char) : read? (fuel + 1) ('"' :: cs) =
    (readQuoted? cs).map fun (text, cs) => (.string (String.ofList text), cs) := rfl

/-- What starts with a bracket and a line end is an array with items. -/
theorem read?_bracket (fuel depth : Nat) (cs : List Char) :
    read? (fuel + 1) ('[' :: ((newline depth).toList ++ cs)) =
      (readRow? (read? fuel) ']' fuel ((newline depth).toList ++ cs)).map
        fun (items, cs) => (.array items, cs) := by
  obtain ⟨blanks, hblanks⟩ := exists_newline_eq depth
  rw [hblanks]
  rfl

/-- What starts with a brace and a line end is an object with fields. -/
theorem read?_brace (fuel depth : Nat) (cs : List Char) :
    read? (fuel + 1) ('\x7b' :: ((newline depth).toList ++ cs)) =
      (readRow? (readField? (read? fuel)) '\x7d' fuel ((newline depth).toList ++ cs)).map
        fun (fields, cs) => (.object fields, cs) := by
  obtain ⟨blanks, hblanks⟩ := exists_newline_eq depth
  rw [hblanks]
  rfl

theorem isWhitespace_of_isDigit {c : Char} (h : c.isDigit = true) : c.isWhitespace = false := by
  rw [Bool.eq_false_iff]
  intro hblank
  simp only [Char.isWhitespace, Bool.or_eq_true, decide_eq_true_eq] at hblank
  rcases hblank with ((rfl | rfl) | rfl) | rfl <;> cases h

/-- What starts with a digit is a number. No other value starts with one. -/
theorem read?_digit {c : Char} (h : c.isDigit = true) (fuel : Nat) (cs : List Char) :
    read? (fuel + 1) (c :: cs) = (readNumber? (c :: cs)).map fun (n, cs) => (.number n, cs) := by
  rw [read?, skip_cons (isWhitespace_of_isDigit h)]
  split
  all_goals
    next heq =>
    first
    | rfl
    | obtain ⟨rfl, -⟩ := List.cons.inj heq
      cases h

/-- Where there is fuel for a row with what is around it, there is some for each
    item. -/
theorem exists_fuel_of_row {α : Type} (textOf : α → List Char) {opening close : Char}
    {depth fuel : Nat} {x : α} {xs : List α}
    (h : (opening :: ((newline (depth + 1)).toList ++ (textOf x ++
      (rowText (depth + 1) (xs.map textOf) ++ ((newline depth).toList ++ [close]))))).length ≤
        fuel) :
    ∃ less, fuel = less + 1 ∧ xs.length ≤ less ∧ ∀ y ∈ x :: xs, (textOf y).length ≤ less := by
  obtain ⟨hcount, hlengths⟩ := length_le_rowText (depth + 1) (xs.map textOf)
  rw [List.length_map] at hcount
  simp only [List.length_cons, List.length_append, List.length_nil] at h
  refine ⟨fuel - 1, by omega, by omega, List.forall_mem_cons.mpr ⟨by omega, fun y hy => ?_⟩⟩
  have hle := hlengths _ (List.mem_map_of_mem hy)
  omega

/-- A document is read from its text, at every depth of indentation. The induction
    is on the document. -/
theorem reads_prettyAt (j : Json) (depth fuel : Nat)
    (hfuel : (prettyAt depth j).toList.length ≤ fuel) :
    Reads (read? (fuel + 1)) (prettyAt depth j).toList j := by
  induction j using forall_of_parts generalizing depth fuel with
  | null =>
    intro rest _
    rw [prettyAt]
    rfl
  | bool b =>
    intro rest _
    cases b <;>
    · rw [prettyAt]
      rfl
  | number n =>
    intro rest hends
    rw [prettyAt]
    have hread := reads_number n rest hends
    rw [toList_toString] at hread ⊢
    obtain ⟨c, cs, hdigits⟩ := List.exists_cons_of_ne_nil (Nat.toDigits_ne_nil (n := n) (b := 10))
    rw [hdigits, List.cons_append] at hread ⊢
    rw [read?_digit (isDigit_of_mem_toDigits (hdigits ▸ List.mem_cons_self)), hread]
    rfl
  | string s =>
    intro rest _
    rw [prettyAt, toList_quote, List.cons_append, List.append_assoc, List.singleton_append,
      read?_quote, readQuoted?_flatMap_escape]
    simp
  | array items ih =>
    intro rest _
    cases items with
    | nil =>
      rw [prettyAt]
      rfl
    | cons item items =>
      rw [toList_prettyAt_array] at hfuel ⊢
      obtain ⟨fuel, rfl, hcount, hlengths⟩ := exists_fuel_of_row (itemText (depth + 1)) hfuel
      have hreads : ∀ other ∈ item :: items,
          Reads (read? (fuel + 1)) (itemText (depth + 1) other) other := fun other hother =>
        ih other hother (depth + 1) fuel (hlengths other hother)
      have hcomma : ']' ≠ ',' := by decide
      have hrow := readRow?_of_reads depth hcomma rfl (read?_newline (depth + 1) (fuel + 1))
        (itemText (depth + 1)) hreads (Nat.lt_succ_of_le hcount) rest
      simp only [List.cons_append, List.append_assoc, List.nil_append]
      rw [read?_bracket, hrow]
      rfl
  | object fields ih =>
    intro rest _
    cases fields with
    | nil =>
      rw [prettyAt]
      rfl
    | cons field fields =>
      rw [toList_prettyAt_object] at hfuel ⊢
      obtain ⟨fuel, rfl, hcount, hlengths⟩ := exists_fuel_of_row (fieldText (depth + 1)) hfuel
      have hreads : ∀ other ∈ field :: fields,
          Reads (readField? (read? (fuel + 1))) (fieldText (depth + 1) other) other := by
        rintro ⟨name, value⟩ hother
        have hle := hlengths (name, value) hother
        simp only [fieldText, List.length_append, List.length_cons] at hle
        have hshorter : (prettyAt (depth + 1) value).toList.length ≤ fuel := by omega
        exact reads_field (ih (name, value) hother (depth + 1) fuel hshorter)
      have hcomma : '\x7d' ≠ ',' := by decide
      have hrow := readRow?_of_reads depth hcomma rfl (readField?_newline (depth + 1) _)
        (fieldText (depth + 1)) hreads (Nat.lt_succ_of_le hcount) rest
      simp only [List.cons_append, List.append_assoc, List.nil_append]
      rw [read?_brace, hrow]
      rfl

/-- A document is what its text is read as, so no two documents have the same text. -/
theorem parse?_pretty (j : Json) : parse? j.pretty = some j := by
  have hread := reads_prettyAt j 0 j.pretty.length (Nat.le_refl _) [] nofun
  rw [List.append_nil] at hread
  rw [parse?, show j.pretty.toList = (prettyAt 0 j).toList from rfl, hread]

end SqlStatement.Json
