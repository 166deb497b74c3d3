/-!
# Why a text is no regular expression

One cause for each way in which the text of a regular expression can be wrong, with its wording.
-/
namespace Settings.Pattern

/-- Why a text is no regular expression. -/
inductive Cause where
  | tooDeep
  | tooLarge
  | nameTaken
  | openGroup
  | openGroupHead
  | strayClose
  | lookAround
  | noFlags
  | missingName
  | badName
  | openName
  | emptyName
  | unknownFlag
  | negatedTwice
  | flagTwice
  | openFlags
  | negatedNothing
  | nothingRepeated
  | nothingCounted
  | openCount
  | openCountMin
  | openCountComma
  | openCountMax
  | badCount
  | countBackwards
  | noDigits
  | badDecimal
  | openEscape
  | backReference
  | unicodeClass
  | unknownEscape
  | missingHex
  | shortHex
  | badHexDigit
  | badHex
  | badBracedDigit
  | openBraced
  | emptyBraced
  | badBraced
  | openBoundary
  | badBoundary
  | unknownBoundary
  | openClass
  | openClassItem
  | openNegatedClass
  | openClassDash
  | openClassBracket
  | nestedClass
  | intersection
  | difference
  | symmetricDifference
  | badClassItem
  | badRangeEnd
  | rangeBackwards
  deriving DecidableEq, Repr

def Cause.message : Cause → String
  | tooDeep => "pattern has too much nesting"
  | tooLarge => "compiled regex exceeded size limit"
  | nameTaken => "duplicate capture group name"
  | openGroup => "found open group without closing ')'"
  | openGroupHead => "expected closing ')', but got end of pattern"
  | strayClose => "found closing ')' without matching '('"
  | lookAround => "look-around is not supported"
  | noFlags => "empty flag directive '(?)' is not allowed"
  | missingName => "expected capture group name, but got end of pattern"
  | badName => "invalid group name"
  | openName => "expected end of capture group name, but got end of pattern"
  | emptyName => "empty capture group names are not allowed"
  | unknownFlag => "unrecognized inline flag"
  | negatedTwice => "inline flag negation cannot be repeated"
  | flagTwice => "duplicate inline flag is not allowed"
  | openFlags => "expected ':' or ')' to end inline flags, but got end of pattern"
  | negatedNothing => "inline flags cannot end with negation directive"
  | nothingRepeated => "uncounted repetition operator must be applied to a sub-expression"
  | nothingCounted => "counted repetition operator must be applied to a sub-expression"
  | openCount => "found unclosed counted repetition operator"
  | openCountMin => "found incomplete and unclosed counted repetition operator"
  | openCountComma => "found counted repetition operator with a comma that is unclosed"
  | openCountMax => "found counted repetition with min and max that is unclosed"
  | badCount => "expected closing brace for counted repetition, but got something else"
  | countBackwards => "found counted repetition with a min bigger than its max"
  | noDigits => "expected decimal number, but found no digits"
  | badDecimal => "got invalid decimal number"
  | openEscape => "saw start of escape sequence, but saw end of pattern before it finished"
  | backReference => "backreferences are not supported"
  | unicodeClass => "Unicode character classes are not supported"
  | unknownEscape => "unrecognized escape sequence"
  | missingHex => "expected hexadecimal number, but saw end of pattern first"
  | shortHex => "expected fixed length hexadecimal number, but saw end of pattern first"
  | badHexDigit => "expected fixed length hexadecimal number, but got non-hex digit"
  | badHex => "got invalid fixed length hexadecimal number"
  | badBracedDigit => "expected hexadecimal number in braces, but got non-hex digit"
  | openBraced => "expected hexadecimal number, but saw end of pattern before closing brace"
  | emptyBraced => "expected hexadecimal number in braces, but got no digits"
  | badBraced => "got invalid hexadecimal number in braces"
  | openBoundary => "found start of special word boundary or repetition without an end"
  | badBoundary => "special word boundary assertion is unclosed or has an invalid character"
  | unknownBoundary => "special word boundary assertion is unrecognized"
  | openClass => "found unclosed character class"
  | openClassItem => "non-empty character class has no closing bracket"
  | openNegatedClass => "negated character class has no closing bracket"
  | openClassDash => "non-empty character class has no closing bracket after dash"
  | openClassBracket => "character class begins with literal ']' but has no closing bracket"
  | nestedClass => "nested character classes are not supported"
  | intersection => "character class intersection is not supported"
  | difference => "character class difference is not supported"
  | symmetricDifference => "character class symmetric difference is not supported"
  | badClassItem => "invalid escape sequence in character class"
  | badRangeEnd => "character class ranges must start and end with a single character"
  | rangeBackwards => "invalid range in character class"

end Settings.Pattern
