import MarkovDecision.Settings.Value

/-!
# Settings files

A settings file is a list of lines. A header names the section that the following
lines belong to; other lines give a key a value. Before the first header a key may
have two parts, a section and a setting in it, or the value may be a whole section
written in braces. A section is opened once, in one of these ways, and a key is
given once. Settings are no deeper than that: a longer key or a nested section
names no setting and is refused here already.
-/

namespace MarkovDecision.Settings

/-- What stands under a key of the file. -/
inductive Item where
  /-- A value. -/
  | value (v : Value)
  /-- A section opened by a header. -/
  | headed (entries : List (String × Value))
  /-- A section opened by keys of two parts. -/
  | dotted (entries : List (String × Value))

/-- A file as far as it has been read. -/
structure Document where
  /-- What has been given, in order. -/
  items : List (String × Item) := []
  /-- The section that lines belong to. -/
  current : Option String := none

namespace Document

/-- The item under a key. -/
def find? (d : Document) (key : String) : Option Item := (d.items.find? (·.1 == key)).map Prod.snd

/-- Replaces the item under a key. -/
def replace (d : Document) (key : String) (item : Item) : Document :=
  { d with items := d.items.map fun (k, old) => if k == key then (k, item) else (k, old) }

/-- Adds an item under a new key. -/
def add (d : Document) (key : String) (item : Item) : Document :=
  { d with items := d.items ++ [(key, item)] }

/-- Opens a section. -/
def openSection (d : Document) : List String → Option Document
  | [name] =>
    match d.find? name with
    | none => some { d.add name (.headed []) with current := some name }
    | some _ => none
  | _ => none

/-- Gives a key a value. -/
def assign (d : Document) (key : List String) (v : Value) : Option Document :=
  match d.current, key with
  | none, [name] =>
    match d.find? name with
    | none => some (d.add name (.value v))
    | some _ => none
  | none, [sect, name] =>
    match d.find? sect with
    | none => some (d.add sect (.dotted [(name, v)]))
    | some (.dotted entries) => (insertNew entries name v).map fun e => d.replace sect (.dotted e)
    | some _ => none
  | some sect, [name] =>
    match d.find? sect with
    | some (.headed entries) => (insertNew entries name v).map fun e => d.replace sect (.headed e)
    | _ => none
  | _, _ => none

/-- The rest of a line after its content: blanks, a comment, and the end. -/
def endOfLine (cs : List Char) : Option (List Char) :=
  match skipComment (skipSpace cs) with
  | [] => some []
  | cs => newline? cs

/-- Reads the line at the front of a text. -/
def readLine (d : Document) (cs : List Char) : Option (Document × List Char) :=
  match skipSpace cs with
  | '[' :: rest => do
    let (name, rest) ← readKey cs.length (skipSpace rest)
    let ']' :: rest := skipSpace rest | none
    some (← d.openSection name, ← endOfLine rest)
  | cs =>
    match endOfLine cs with
    | some rest => some (d, rest)
    | none => do
      let (key, rest) ← readKey cs.length cs
      let '=' :: rest := skipSpace rest | none
      let (v, rest) ← readValue cs.length (skipSpace rest)
      some (← d.assign key v, ← endOfLine rest)

/-- Reads lines until the text is used up. -/
def readLines : Nat → Document → List Char → Option Document
  | _, d, [] => some d
  | 0, _, _ => none
  | fuel + 1, d, cs => do
    let (d, rest) ← d.readLine cs
    readLines fuel d rest

/-- **The content of a settings file.** A byte-order mark at its front is passed over. -/
def ofText? (text : String) : Option (List (String × Item)) :=
  let cs := match text.toList with
    | '\ufeff' :: rest => rest
    | cs => cs
  (readLines cs.length {} cs).map items

end Document

end MarkovDecision.Settings
