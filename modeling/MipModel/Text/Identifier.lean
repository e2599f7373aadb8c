/-!
# Identifiers

Names of variables and rows end up in written models, whose readers accept letters, digits and
underscores. A label of any kind becomes such a name character by character; a counter, written
with at least five digits, keeps names with equal labels apart.
-/

namespace MipModel.Identifier

/-- The identifier character that stands for a character of a label: ASCII letters, digits and
underscores stand for themselves, a minus sign becomes `m`, everything else an underscore. -/
def safeChar (c : Char) : Char :=
  if c.isAlphanum || c == '_' then c
  else if c == '-' then 'm'
  else '_'

def sanitize (label : String) : String :=
  String.ofList (label.toList.map safeChar)

/-- A number with at least five digits. -/
def counter (n : Nat) : String :=
  let digits := Nat.toDigits 10 n
  String.ofList (List.replicate (5 - digits.length) '0' ++ digits)

/-- A letter, a counter and, unless the label is empty, the label made safe. -/
def numbered (letter : String) (n : Nat) (label : String) : String :=
  if label.isEmpty then letter ++ counter n
  else letter ++ counter n ++ "_" ++ sanitize label

def join (parts : List String) : String :=
  "_".intercalate parts

end MipModel.Identifier
