import Stencil.Unicode.Category
import Stencil.Unicode.Ranges
import Stencil.Unicode.Script

/-!
# Named properties of characters

The properties that an expression can name, and the reading of their names: letter case, blanks,
underscores, hyphens and a leading `is` make no difference.
-/

namespace Stencil.Unicode

/-- A set of characters that has a name. -/
inductive Property where
  | any
  | ascii
  | assigned
  | categories (cs : List Category)
  | ranges (s : RangeSet)
  | alphabetic
  | lowercase
  | uppercase
  | whiteSpace
  /-- Decimal digits of any script. -/
  | digit
  /-- Characters of words: letters, marks, digits, connectors and joiners. -/
  | word
deriving DecidableEq, Repr

/-- The categories of marks. -/
def markCategories : List Category := [.nonspacingMark, .spacingMark, .enclosingMark]

/-- Whether a character beyond ASCII belongs to words. -/
def isWideWord (c : Char) : Bool :=
  alphabetic.mem c ||
    (Category.of c ∈ markCategories ++ [.decimalNumber, .connectorPunctuation] ||
      (c == '\u200c' || c == '\u200d'))

/-- Whether a character belongs to words. -/
def isWord (c : Char) : Bool :=
  if c.toNat < 128 then c.isAlphanum || c == '_' else isWideWord c

/-- Whether a character is white space. -/
def isSpace (c : Char) : Bool :=
  if c.toNat < 128 then c == ' ' || (9 ≤ c.toNat && c.toNat ≤ 13) else whiteSpace.mem c

/-- Whether a character is a decimal digit of some script. -/
def isDecimalDigit (c : Char) : Bool :=
  if c.toNat < 128 then c.isDigit else Category.of c == .decimalNumber

/-- Whether a character is a letter of some script. -/
def isAlphabetic (c : Char) : Bool := if c.toNat < 128 then c.isAlpha else alphabetic.mem c

/-- Whether a character is a letter or a number of some script. -/
def isAlphanumeric (c : Char) : Bool :=
  if c.toNat < 128 then c.isAlphanum
  else alphabetic.mem c || Category.of c ∈ [Category.decimalNumber, .letterNumber, .otherNumber]

namespace Property

/-- Whether a character has a property. -/
def holds (p : Property) (c : Char) : Bool :=
  match p with
  | any => true
  | ascii => c.toNat < 128
  | assigned => Category.of c != .unassigned
  | categories cs => cs.contains (Category.of c)
  | ranges s => s.mem c
  | alphabetic => isAlphabetic c
  | lowercase => Unicode.lowercase.mem c
  | uppercase => Unicode.uppercase.mem c
  | whiteSpace => isSpace c
  | digit => isDecimalDigit c
  | word => isWord c

/-- A name with all that makes no difference taken out. -/
def normalName (name : List Char) : String :=
  let lowered := (name.filter fun c => !(c == ' ' || c == '_' || c == '-') && c.toNat < 128).map
    Char.toLower
  match lowered with
  | 'i' :: 's' :: rest => if rest = ['c'] then "isc" else .ofList rest
  | cs => .ofList cs

/-- The general categories and their groups, by their names. -/
def categoryNames : List (List String × List Category) := [
  (["lu", "uppercaseletter"], [.uppercaseLetter]),
  (["ll", "lowercaseletter"], [.lowercaseLetter]),
  (["lt", "titlecaseletter"], [.titlecaseLetter]),
  (["lc", "casedletter"], [.uppercaseLetter, .lowercaseLetter, .titlecaseLetter]),
  (["lm", "modifierletter"], [.modifierLetter]),
  (["lo", "otherletter"], [.otherLetter]),
  (["l", "letter"],
    [.uppercaseLetter, .lowercaseLetter, .titlecaseLetter, .modifierLetter, .otherLetter]),
  (["mn", "nonspacingmark"], [.nonspacingMark]),
  (["mc", "spacingmark"], [.spacingMark]),
  (["me", "enclosingmark"], [.enclosingMark]),
  (["m", "mark", "combiningmark"], markCategories),
  (["nd", "decimalnumber", "digit"], [.decimalNumber]),
  (["nl", "letternumber"], [.letterNumber]),
  (["no", "othernumber"], [.otherNumber]),
  (["n", "number"], [.decimalNumber, .letterNumber, .otherNumber]),
  (["pc", "connectorpunctuation"], [.connectorPunctuation]),
  (["pd", "dashpunctuation"], [.dashPunctuation]),
  (["ps", "openpunctuation"], [.openPunctuation]),
  (["pe", "closepunctuation"], [.closePunctuation]),
  (["pi", "initialpunctuation"], [.initialPunctuation]),
  (["pf", "finalpunctuation"], [.finalPunctuation]),
  (["po", "otherpunctuation"], [.otherPunctuation]),
  (["p", "punct", "punctuation"], [.connectorPunctuation, .dashPunctuation, .openPunctuation,
    .closePunctuation, .initialPunctuation, .finalPunctuation, .otherPunctuation]),
  (["sm", "mathsymbol"], [.mathSymbol]),
  (["sc", "currencysymbol"], [.currencySymbol]),
  (["sk", "modifiersymbol"], [.modifierSymbol]),
  (["so", "othersymbol"], [.otherSymbol]),
  (["s", "symbol"], [.mathSymbol, .currencySymbol, .modifierSymbol, .otherSymbol]),
  (["zs", "spaceseparator"], [.spaceSeparator]),
  (["zl", "lineseparator"], [.lineSeparator]),
  (["zp", "paragraphseparator"], [.paragraphSeparator]),
  (["z", "separator"], [.spaceSeparator, .lineSeparator, .paragraphSeparator]),
  (["cc", "control", "cntrl"], [.control]),
  (["cf", "format"], [.format]),
  (["cs", "surrogate"], [.surrogate]),
  (["co", "privateuse"], [.privateUse]),
  (["cn", "unassigned"], [.unassigned]),
  (["c", "other"], [.control, .format, .surrogate, .privateUse, .unassigned])]

/-- The general category, or group of them, of a name. -/
def ofCategory? (name : String) : Option Property :=
  match name with
  | "any" => some any
  | "ascii" => some ascii
  | "assigned" => some assigned
  | _ => (categoryNames.find? (·.1.contains name)).map fun e => categories e.2

/-- The script of a name. -/
def ofScript? (name : String) : Option Property :=
  (Script.entries.find? fun e =>
    normalName e.short.toList == name || normalName e.long.toList == name).map
    fun e => ranges (.ofGaps e.gaps)

/-- The property of a name that stands alone. -/
def ofName? (written : List Char) : Option Property :=
  let name := normalName written
  if name = "alphabetic" ∨ name = "alpha" then some alphabetic
  else if name = "lowercase" ∨ name = "lower" then some lowercase
  else if name = "uppercase" ∨ name = "upper" then some uppercase
  else if name = "whitespace" ∨ name = "wspace" ∨ name = "space" then some whiteSpace
  else ofCategory? name <|> ofScript? name

/-- The property that has a value of a named kind. -/
def ofValue? (kind value : List Char) : Option Property :=
  let kind := normalName kind
  if kind = "gc" ∨ kind = "generalcategory" then ofCategory? (normalName value)
  else if kind ∈ ["sc", "script", "scx", "scriptextensions"] then ofScript? (normalName value)
  else none

end Property

end Stencil.Unicode
