import FastTts.JsonText

/-!
# JSON with comments

`parse_jsonc` takes the line comments out of a text, then the commas in front of a closing bracket,
and parses what is left. Both passes go over the text byte by byte and keep track of strings.
-/

namespace FastTts.Jsonc

open JsonText

/-! ## The two passes -/

/-- Where a pass is: the flags `in_string` and `escaped`, and the loop that skips a comment. -/
inductive Scan
  | outside
  | inString
  | escaped
  | comment
  deriving DecidableEq, Repr

/-- Behind a byte of a string. -/
def Scan.inStringAfter (ch : UInt8) : Scan :=
  if ch = 0x5C then .escaped else if ch = 0x22 then .outside else .inString

/-- The line break behind a comment is kept. -/
def stripCommentsFrom : Scan → Bytes → Bytes
  | _, [] => []
  | .outside, ch :: rest =>
    if ch = 0x22 then ch :: stripCommentsFrom .inString rest
    else if ch = 0x2F ∧ rest.head? = some 0x2F then stripCommentsFrom .comment rest
    else ch :: stripCommentsFrom .outside rest
  | .inString, ch :: rest => ch :: stripCommentsFrom (.inStringAfter ch) rest
  | .escaped, ch :: rest => ch :: stripCommentsFrom .inString rest
  | .comment, ch :: rest =>
    if ch = 0x0A then ch :: stripCommentsFrom .outside rest else stripCommentsFrom .comment rest

def stripJsoncComments (text : Bytes) : Bytes := stripCommentsFrom .outside text

/-- Behind a comma: only white space comes before a closing bracket. -/
def isTrailing (rest : Bytes) : Bool :=
  match rest.dropWhile isSpace with
  | [] => false
  | ch :: _ => ch = 0x7D || ch = 0x5D

/-- The pass has no state for a comment. -/
def stripCommasFrom : Scan → Bytes → Bytes
  | _, [] => []
  | .inString, ch :: rest => ch :: stripCommasFrom (.inStringAfter ch) rest
  | .escaped, ch :: rest => ch :: stripCommasFrom .inString rest
  | _, ch :: rest =>
    if ch = 0x22 then ch :: stripCommasFrom .inString rest
    else if ch = 0x2C ∧ isTrailing rest = true then stripCommasFrom .outside rest
    else ch :: stripCommasFrom .outside rest

def stripJsoncTrailingCommas (text : Bytes) : Bytes := stripCommasFrom .outside text

def stripJsonc (text : Bytes) : Bytes := stripJsoncTrailingCommas (stripJsoncComments text)

def parseJsonc (text : Bytes) : Option (Json Binary64) := parse (stripJsonc text)

/-! ## String literals -/

def consFirst (ch : UInt8) : List Bytes → List Bytes
  | [] => [[ch]]
  | first :: rest => (ch :: first) :: rest

/-- What stands between the quotes of a text that has comments, or of one that has none. -/
def literalsFrom (comments : Bool) : Scan → Bytes → List Bytes
  | .outside, [] => []
  | .comment, [] => []
  | .inString, [] => [[]]
  | .escaped, [] => [[]]
  | .outside, ch :: rest =>
    if ch = 0x22 then literalsFrom comments .inString rest
    else if comments = true ∧ ch = 0x2F ∧ rest.head? = some 0x2F then
      literalsFrom comments .comment rest
    else literalsFrom comments .outside rest
  | .inString, ch :: rest =>
    if ch = 0x22 then [] :: literalsFrom comments .outside rest
    else consFirst ch (literalsFrom comments (.inStringAfter ch) rest)
  | .escaped, ch :: rest => consFirst ch (literalsFrom comments .inString rest)
  | .comment, ch :: rest =>
    if ch = 0x0A then literalsFrom comments .outside rest else literalsFrom comments .comment rest

def literals (comments : Bool) (text : Bytes) : List Bytes := literalsFrom comments .outside text

/-! ## Tokens -/

def Digits (text : Bytes) : Prop := text ≠ [] ∧ ∀ ch ∈ text, isDigit ch = true

inductive IsFraction : Bytes → Prop
  | none : IsFraction []
  | point {digits : Bytes} (h : Digits digits) : IsFraction (0x2E :: digits)

inductive IsSign : Bytes → Prop
  | none : IsSign []
  | plus : IsSign [0x2B]
  | minus : IsSign [0x2D]

inductive IsExponent : Bytes → Prop
  | none : IsExponent []
  | power {letter : UInt8} {sign digits : Bytes} (hletter : letter = 0x65 ∨ letter = 0x45)
      (hsign : IsSign sign) (hdigits : Digits digits) : IsExponent (letter :: (sign ++ digits))

inductive IsNumber : Bytes → Prop
  | intro {sign whole fraction exponent : Bytes} (hsign : sign = [] ∨ sign = [0x2D])
      (hwhole : Digits whole) (hfraction : IsFraction fraction) (hexponent : IsExponent exponent) :
      IsNumber (sign ++ (whole ++ (fraction ++ exponent)))

inductive IsWord : Bytes → Prop
  | nullWord : IsWord (bytes "null")
  | trueWord : IsWord (bytes "true")
  | falseWord : IsWord (bytes "false")
  | number {text : Bytes} (h : IsNumber text) : IsWord text

inductive IsContent : Bytes → Prop
  | nil : IsContent []
  | plain {ch : UInt8} {content : Bytes} (hquote : ch ≠ 0x22) (hbackslash : ch ≠ 0x5C)
      (h : IsContent content) : IsContent (ch :: content)
  | escape (ch : UInt8) {content : Bytes} (h : IsContent content) :
      IsContent (0x5C :: ch :: content)

inductive Mark
  | openArray
  | closeArray
  | openObject
  | closeObject
  | colon
  | comma
  deriving DecidableEq, Repr

def Mark.byte : Mark → UInt8
  | openArray => 0x5B
  | closeArray => 0x5D
  | openObject => 0x7B
  | closeObject => 0x7D
  | colon => 0x3A
  | comma => 0x2C

inductive Token
  | word (text : Bytes) (h : IsWord text)
  | string (content : Bytes) (h : IsContent content)
  | mark (sign : Mark)

def Token.text : Token → Bytes
  | word text _ => text
  | string content _ => 0x22 :: (content ++ [0x22])
  | mark sign => [sign.byte]

theorem Token.string_append (content : Bytes) (h : IsContent content) (rest : Bytes) :
    (Token.string content h).text ++ rest = 0x22 :: (content ++ 0x22 :: rest) := by
  rw [Token.text, List.cons_append, List.append_assoc, List.singleton_append]

def Token.Closes (token : Token) : Prop :=
  token = .mark .closeArray ∨ token = .mark .closeObject

/-- Behind a word comes a mark, and behind a comma no closing bracket. -/
inductive Follows : Token → Token → Prop
  | word (text : Bytes) (h : IsWord text) (sign : Mark) : Follows (.word text h) (.mark sign)
  | string (content : Bytes) (h : IsContent content) (next : Token) :
      Follows (.string content h) next
  | comma {next : Token} (h : ¬ next.Closes) : Follows (.mark .comma) next
  | mark {sign : Mark} (h : sign ≠ .comma) (next : Token) : Follows (.mark sign) next

/-- What the tokens of every JSON text have in common. -/
def JsonTokens (tokens : List Token) : Prop := tokens.IsChain Follows

mutual

inductive IsValue : List Token → Prop
  | word (text : Bytes) (h : IsWord text) : IsValue [.word text h]
  | string (content : Bytes) (h : IsContent content) : IsValue [.string content h]
  | emptyArray : IsValue [.mark .openArray, .mark .closeArray]
  | array {items : List Token} (h : IsItems items) :
      IsValue (.mark .openArray :: (items ++ [.mark .closeArray]))
  | emptyObject : IsValue [.mark .openObject, .mark .closeObject]
  | object {members : List Token} (h : IsMembers members) :
      IsValue (.mark .openObject :: (members ++ [.mark .closeObject]))

inductive IsItems : List Token → Prop
  | last {item : List Token} (h : IsValue item) : IsItems item
  | more {item items : List Token} (h : IsValue item) (hitems : IsItems items) :
      IsItems (item ++ .mark .comma :: items)

inductive IsMembers : List Token → Prop
  | last (key : Bytes) (hkey : IsContent key) {value : List Token} (h : IsValue value) :
      IsMembers (.string key hkey :: .mark .colon :: value)
  | more (key : Bytes) (hkey : IsContent key) {value members : List Token} (h : IsValue value)
      (hmembers : IsMembers members) :
      IsMembers (.string key hkey :: .mark .colon :: (value ++ .mark .comma :: members))

end

/-! ## Texts -/

def Blank (gap : Bytes) : Prop := ∀ ch ∈ gap, isSpace ch = true

inductive Commented : Bytes → Prop
  | nil : Commented []
  | space {ch : UInt8} {gap : Bytes} (hch : isSpace ch = true) (h : Commented gap) :
      Commented (ch :: gap)
  | comment {body gap : Bytes} (hbody : 0x0A ∉ body) (h : Commented gap) :
      Commented (0x2F :: 0x2F :: (body ++ 0x0A :: gap))

/-- A comment at the end of a text needs no line break. -/
inductive CommentedEnd : Bytes → Prop
  | closed {gap : Bytes} (h : Commented gap) : CommentedEnd gap
  | opened {gap body : Bytes} (h : Commented gap) (hbody : 0x0A ∉ body) :
      CommentedEnd (gap ++ 0x2F :: 0x2F :: body)

/-- Tokens with gaps between them, and possibly a comma more in front of a closing bracket. -/
inductive Spelled (Gap End : Bytes → Prop) (commas : Prop) : List Token → Bytes → Prop
  | nil {gap : Bytes} (h : End gap) : Spelled Gap End commas [] gap
  | cons {gap text : Bytes} (token : Token) {tokens : List Token} (hgap : Gap gap)
      (h : Spelled Gap End commas tokens text) :
      Spelled Gap End commas (token :: tokens) (gap ++ (token.text ++ text))
  | comma {gap after text : Bytes} {token : Token} {tokens : List Token} (hcommas : commas)
      (hcloses : token.Closes) (hgap : Gap gap) (hafter : Gap after)
      (h : Spelled Gap End commas tokens text) :
      Spelled Gap End commas (token :: tokens) (gap ++ 0x2C :: (after ++ (token.text ++ text)))

/-- A text without comments and trailing commas. -/
abbrev Spaced : List Token → Bytes → Prop := Spelled Blank Blank False

/-- A text with comments and trailing commas between its tokens. -/
abbrev Decorated : List Token → Bytes → Prop := Spelled Commented CommentedEnd True

end FastTts.Jsonc
