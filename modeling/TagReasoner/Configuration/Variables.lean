import TagReasoner.Text.Blank

/-!
# Files of variables

A file of environment variables binds names to values, one binding on a line. A name may have the
word `export` in front and may stand in single quotes. Without an equality sign it is bound to
nothing. A value may stand in quotes, in which escapes are read and lines may end; without quotes it
goes up to a comment or the end of the line. What does not fit is left out up to the end of its
line.

In a value a name in braces behind a dollar sign stands for the value of that variable, as bound
further up in the file or else in the environment. A default may follow the name, for a variable
that is not set.
-/

namespace TagReasoner
namespace Variables

/-- A name with its value, if it has one. -/
structure Binding where
  name : Text
  value : Option Text
  deriving DecidableEq

/-! ## Values -/

/-- A blank that does not end a line. -/
def isGapChar (c : Char) : Bool := Text.isBlank c && c ≠ '\n'

/-- The text without the gap that it starts with. -/
def skipGap (t : Text) : Text := t.dropWhile isGapChar

/-- The text up to the closing quote and what follows it, given the text so far in reverse. A quote
behind a backslash closes only if no other quote does, and of those the last one, `last`. -/
def untilQuote (quote : Char) : Text → Option (Text × Text) → Text → Option (Text × Text)
  | _, last, [] => last
  | found, last, '\\' :: c :: r =>
    if c = quote then
      untilQuote quote (c :: '\\' :: found) (some (('\\' :: found).reverse, r)) r
    else untilQuote quote ('\\' :: found) last (c :: r)
  | found, last, c :: r =>
    if c = quote then some (found.reverse, r) else untilQuote quote (c :: found) last r

/-- The escapes in single quotes. -/
def singleEscapes : List (Char × Char) := [('\\', '\\'), ('\'', '\'')]

/-- The escapes in double quotes. -/
def doubleEscapes : List (Char × Char) :=
  [('\\', '\\'), ('\'', '\''), ('"', '"'), ('a', '\x07'), ('b', '\x08'), ('f', '\x0c'), ('n', '\n'),
   ('r', '\r'), ('t', '\t'), ('v', '\x0b')]

/-- The text with escapes read; a backslash in front of another letter stands for itself. -/
def unescaped (escapes : List (Char × Char)) : Text → Text
  | [] => []
  | '\\' :: c :: r =>
    match escapes.find? fun e => e.1 = c with
    | some e => e.2 :: unescaped escapes r
    | none => '\\' :: unescaped escapes (c :: r)
  | c :: r => c :: unescaped escapes r

/-- A value up to a comment, which is set apart by a blank. -/
def uncommented : Text → Text
  | [] => []
  | c :: r => if Text.isBlank c && (Text.stripStart r).head? = some '#' then [] else c :: uncommented r

/-- A value and what follows it, or what follows the place where there is none. -/
def value (t : Text) : Except Text (Text × Text) :=
  let quoted (quote : Char) (escapes : List (Char × Char)) (r : Text) :=
    match untilQuote quote [] none r with
    | some (inside, rest) => .ok (unescaped escapes inside, rest)
    | none => .error t
  match t with
  | '\'' :: r => quoted '\'' singleEscapes r
  | '"' :: r => quoted '"' doubleEscapes r
  | t =>
    let (line, rest) := t.span (· ≠ '\n')
    .ok (Text.stripEnd (uncommented line), rest)

/-! ## Bindings -/

/-- What follows the word `export` and a gap, if they are in front. -/
def skipExport (t : Text) : Text :=
  let r := t.drop 6
  if "export".toList.isPrefixOf t && (r.head?.map isGapChar).getD false then skipGap r else t

/-- Ends a name without quotes. -/
def endsName (c : Char) : Bool := c = '=' || c = '#' || Text.isBlank c

/-- A name and what follows it; a comment has none. -/
def name (t : Text) : Except Text (Option Text × Text) :=
  match t with
  | '#' :: _ => .ok (none, t)
  | '\'' :: r =>
    match r.span (· ≠ '\'') with
    | (found@(_ :: _), _ :: rest) => .ok (some found, rest)
    | _ => .error t
  | t =>
    match t.span fun c => !endsName c with
    | ([], _) => .error t
    | (found, rest) => .ok (some found, rest)

/-- What follows the end of this line, if nothing but a gap and a comment is in front of it. -/
def endOfLine (t : Text) : Except Text Text :=
  match skipGap t with
  | [] => .ok []
  | '\n' :: r => .ok r
  | '#' :: r => .ok ((r.dropWhile (· ≠ '\n')).drop 1)
  | _ => .error t

/-- The binding that a text starts with, and what follows it. -/
def binding (t : Text) : Except Text (Option Binding × Text) := do
  let (name, r) ← name (skipExport t)
  let r := skipGap r
  let (value, r) ← match r with
    | '=' :: r => (value (skipGap r)).map fun (v, r) => (some v, r)
    | r => .ok (none, r)
  let r ← endOfLine r
  return (name.map fun n => ⟨n, value⟩, r)

/-- The bindings of a text; `fuel` is at least its length. -/
def bindingsFrom : Nat → Text → List Binding
  | 0, _ => []
  | fuel + 1, t =>
    match Text.stripStart t with
    | [] => []
    | t =>
      match binding t with
      | .ok (found, r) => found.toList ++ bindingsFrom fuel r
      | .error r => bindingsFrom fuel ((r.dropWhile (· ≠ '\n')).drop 1)

/-- The bindings of a text. -/
def bindings (t : Text) : List Binding := bindingsFrom t.length t

/-! ## References -/

/-- A variable named inside a value: its default and the length of it all. -/
structure Reference where
  name : Text
  standard : Text
  length : Nat
  deriving DecidableEq

/-- The reference that a text starts with. -/
def reference? : Text → Option Reference
  | '$' :: '{' :: r =>
    let name := r.takeWhile fun c => c ≠ '}' && c ≠ ':'
    match r.drop name.length with
    | '}' :: _ => some ⟨name, [], name.length + 3⟩
    | ':' :: '-' :: s =>
      let standard := s.takeWhile (· ≠ '}')
      match s.drop standard.length with
      | '}' :: _ => some ⟨name, standard, name.length + standard.length + 5⟩
      | _ => none
    | _ => none
  | _ => none

/-- The text with its references replaced by what they refer to; the first `skip` characters are
dropped. -/
def expandFrom (refersTo : Reference → Text) : Nat → Text → Text
  | _, [] => []
  | skip + 1, _ :: r => expandFrom refersTo skip r
  | 0, c :: r =>
    match reference? (c :: r) with
    | some ref => refersTo ref ++ expandFrom refersTo (ref.length - 1) r
    | none => c :: expandFrom refersTo 0 r

/-- Binds a name. One that is bound already keeps its place. -/
def bind (b : Binding) : List Binding → List Binding
  | [] => [b]
  | a :: rest => if a.name = b.name then b :: rest else a :: bind b rest

/-- What a reference refers to, given the bindings so far and the environment. -/
def valueOf (bound : List Binding) (environment : List (Text × Text)) (ref : Reference) : Text :=
  match bound.find? fun b => b.name = ref.name with
  | some b => b.value.getD []
  | none => ((environment.find? fun v => v.1 = ref.name).map (·.2)).getD ref.standard

/-- The bindings with the references in their values carried out, each against those before. -/
def resolved (environment : List (Text × Text)) (bindings : List Binding) : List Binding :=
  bindings.foldl
    (fun bound b => bind ⟨b.name, b.value.map (expandFrom (valueOf bound environment) 0)⟩ bound) []

end Variables
end TagReasoner
