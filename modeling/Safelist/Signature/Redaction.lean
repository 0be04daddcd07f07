import Safelist.Document.Edit

/-!
# Redaction

What is typed into a document must not reach the list: numbers become zero and
strings become empty. Redaction keeps the shape of values, so the operation
stays valid; the stronger form also empties lists and input objects.
-/

namespace Safelist.Signature

/-- A literal in its fixed form; any other value as it is. -/
def redactValue : Value → Value
  | .int _ => .int "0"
  | .float _ => .float "0"
  | .string _ _ => .string "" false
  | v => v

/-- A literal in its fixed form, a list or an input object without its parts, and any
other value as it is. -/
def blankValue : Value → Value
  | .list _ => .list []
  | .object _ => .object []
  | v => redactValue v

/-- Numbers and strings in their fixed forms, everywhere in a document. -/
def redact (d : Document) : Document := Edit.apply { value := redactValue } d

/-- Numbers, strings, lists and input objects in their fixed forms, everywhere in a
document. -/
def hideLiterals (d : Document) : Document := Edit.apply { value := blankValue } d

end Safelist.Signature
