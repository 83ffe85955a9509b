import FastTts.Bytes
import Mathlib.Data.List.Sort

/-!
# Chat hygiene

What keeps a roleplay model's markup out of the conversation: `StreamScrubber` cleans the reply
while it streams, `sanitize_assistant_text` cleans a finished reply before the model reads it again,
and `turn_anchor` writes the note that rides in the newest user message.
-/

namespace FastTts.Hygiene

/-! ## Code points -/

/-- The payload of a lead byte and the length of its sequence. -/
def leadByte (first : UInt8) : Option (ℕ × ℕ) :=
  if first &&& 0xE0 == 0xC0 then some ((first &&& 0x1F).toNat, 2)
  else if first &&& 0xF0 == 0xE0 then some ((first &&& 0x0F).toNat, 3)
  else if first &&& 0xF8 == 0xF0 then some ((first &&& 0x07).toNat, 4)
  else none

variable (text : Bytes)

/-- The first code point of a text and its length; a byte that starts none counts as `U+FFFD`. -/
def decodeUtf8 : ℕ × ℕ :=
  match text with
  | [] => (0xFFFD, 1)
  | first :: rest =>
    if first < 0x80 then (first.toNat, 1)
    else match leadByte first with
      | none => (0xFFFD, 1)
      | some (payload, length) =>
        let continuation := rest.take (length - 1)
        if continuation.length = length - 1 ∧
            continuation.all (fun byte => byte &&& 0xC0 == 0x80) = true then
          (continuation.foldl (fun value byte => value * 64 + (byte &&& 0x3F).toNat) payload,
            length)
        else (0xFFFD, 1)

/-- The code points of a text, each with its bytes; the length of the text is enough fuel. -/
def codepointsLoop : ℕ → Bytes → List (ℕ × Bytes)
  | 0, _ => []
  | _, [] => []
  | fuel + 1, text =>
    let (cp, length) := decodeUtf8 text
    (cp, text.take length) :: codepointsLoop fuel (text.drop length)

def codepoints : List (ℕ × Bytes) := codepointsLoop text.length text

def isCjk (cp : ℕ) : Bool :=
  (0x3400 ≤ cp && cp ≤ 0x9FFF) || (0xF900 ≤ cp && cp ≤ 0xFAFF) ||
    (0x20000 ≤ cp && cp ≤ 0x2FA1F)

def isAsciiLetter (cp : ℕ) : Bool := (0x41 ≤ cp && cp ≤ 0x5A) || (0x61 ≤ cp && cp ≤ 0x7A)

/-- The share of CJK letters is at least `num / den`. -/
def mostlyCjk (num den : ℕ) : Bool :=
  let cps := (codepoints text).map Prod.fst
  let cjk := (cps.filter isCjk).length
  let letters := (cps.filter fun cp =>
    isCjk cp || isAsciiLetter cp || (0xC0 ≤ cp && cp < 0x3000)).length
  decide (letters ≠ 0 ∧ num * letters ≤ den * cjk)

/-! ## The sanitizer -/

/-- Replaces each span of at most `maxSpan` bytes by a space; the length of the text and one more
is enough fuel. -/
def stripSpans (opener closer : Bytes) (maxSpan : ℕ) : ℕ → Bytes → Bytes
  | 0, _ => []
  | fuel + 1, text =>
    match find text opener with
    | none => text
    | some start =>
      let body := text.drop (start + opener.length)
      text.take start ++ match find body closer with
        | none => if maxSpan < body.length then text.drop start else []
        | some len =>
          let rest := stripSpans opener closer maxSpan fuel (body.drop (len + closer.length))
          if maxSpan < len then
            (text.drop start).take (opener.length + len + closer.length) ++ rest
          else 0x20 :: rest

def isBlank (ch : UInt8) : Bool := ch == 0x20 || ch == 0x0A || ch == 0x0D || ch == 0x09

def squeezeLoop : Bool → Bytes → Bytes
  | _, [] => []
  | inSpace, ch :: rest =>
    if ch == 0x20 || ch == 0x09 then
      if inSpace then squeezeLoop true rest else 0x20 :: squeezeLoop true rest
    else ch :: squeezeLoop false rest

def collapseSpaces : Bytes :=
  ((squeezeLoop false text).dropWhile isBlank).rdropWhile isBlank

/-- Straight and curved double quotes, and corner brackets. -/
def quoteMarks : List (Bytes × Bytes) :=
  [([0x22], [0x22]), ([0xE2, 0x80, 0x9C], [0xE2, 0x80, 0x9D]),
    ([0xE3, 0x80, 0x8C], [0xE3, 0x80, 0x8D])]

def quotedSpans (opener closer : Bytes) : ℕ → Bytes → List Bytes
  | 0, _ => []
  | fuel + 1, text =>
    match find text opener with
    | none => []
    | some start =>
      let body := text.drop (start + opener.length)
      match find body closer with
      | none => []
      | some len =>
        let rest := quotedSpans opener closer fuel (body.drop (len + closer.length))
        if 2 ≤ len then body.take len :: rest else rest

/-- Text that is mostly quoted dialogue keeps the quoted spans only. -/
def recoverQuotedDialogue : Bytes :=
  let spans := quoteMarks.flatMap fun mark => quotedSpans mark.1 mark.2 (text.length + 1) text
  if spans.isEmpty ∨ (spans.map List.length).sum < text.length * 2 / 5 then text
  else [0x20].intercalate spans

def unquote (mark : Bytes × Bytes) : Bytes :=
  if mark.1.length + mark.2.length < text.length ∧ mark.1.isPrefixOf text = true ∧
      mark.2.isSuffixOf text = true then
    (text.drop mark.1.length).take (text.length - mark.1.length - mark.2.length)
  else text

/-- The text up to the first occurrence of `marker`. -/
def cutAt (text marker : Bytes) : Bytes :=
  match find text marker with
  | none => text
  | some index => text.take index

def fullParenOpen : Bytes := [0xEF, 0xBC, 0x88]

def fullParenClose : Bytes := [0xEF, 0xBC, 0x89]

def sanitizeAssistantText : Bytes :=
  let out := cutAt (cutAt text [0x3C, 0x7C]) [0x0A, 0x0A]
  let out := stripSpans [0x2A] [0x2A] 120 (out.length + 1) out
  let out := match rfindByte out 0x2A out.length with
    | some stray => if out.length - stray ≤ 120 then out.take stray else out
    | none => out
  let out := stripSpans fullParenOpen fullParenClose 80 (out.length + 1) out
  collapseSpaces (quoteMarks.foldl unquote (collapseSpaces (recoverQuotedDialogue out)))

/-! ## The steering note -/

def noteRule : Bytes := bytes ("\nSome user messages end with a bracketed note like [reply in " ++
  "English]. That note is stage direction for you alone: follow it exactly, never mention it, " ++
  "never quote it, and never write bracketed notes yourself.")

def containsCi (haystack needle : Bytes) : Bool :=
  (find (haystack.map toLower) (needle.map toLower)).isSome

/-- `word` occurs between bytes that are no letters or digits. -/
def containsWordCi (text word : Bytes) : Bool :=
  (List.range (text.length + 1)).any fun at_ =>
    isAt (text.map toLower) at_ (word.map toLower) &&
      (decide (at_ = 0) || !(text[at_ - 1]?).any isAlnum) && !(text[at_ + word.length]?).any isAlnum

def contains (text needle : Bytes) : Bool := (find text needle).isSome

def hasFiller : Bool :=
  contains text (bytes "哎呀") || contains text (bytes "啊呀") || containsCi text (bytes "aiya")

def mentionsAi : Bool :=
  containsWordCi text (bytes "AI") || contains text (bytes "机器人") ||
    contains text (bytes "人工智能")

def isAiProbe : Bool :=
  mentionsAi text || containsWordCi text (bytes "bot") || containsWordCi text (bytes "robot") ||
    containsWordCi text (bytes "model") || contains text (bytes "模型")

def isMemoryCheck : Bool :=
  ["what did i", "did i tell", "quiz", "test me", "remember when", "what was my",
    "what month"].any (fun needle => containsCi text (bytes needle)) ||
    ["我说过", "还记得", "考考你"].any fun needle => contains text (bytes needle)

def firstWordLoop : ℕ → Bytes → List (ℕ × Bytes) → Bytes
  | _, word, [] => word
  | cjk, word, (cp, raw) :: rest =>
    if isAsciiLetter cp || cp == 0x27 then
      if 0 < cjk then word else firstWordLoop cjk (word ++ raw) rest
    else if isCjk cp then
      if 2 ≤ cjk + 1 then word ++ raw else firstWordLoop (cjk + 1) (word ++ raw) rest
    else word

def firstWord : Bytes :=
  firstWordLoop 0 [] (codepoints (text.dropWhile isSpace))

def flushWord (tokens : List Bytes) (word : Bytes) : List Bytes :=
  if word.isEmpty then tokens else tokens ++ [word]

def loopTokensLoop : List Bytes → Bytes → Bytes → List (ℕ × Bytes) → List Bytes
  | tokens, word, _, [] => flushWord tokens word
  | tokens, word, previousCjk, (cp, raw) :: rest =>
    if isAsciiLetter cp || cp == 0x27 then
      loopTokensLoop tokens (word ++ raw.map toLower) [] rest
    else if isCjk cp then
      let tokens := flushWord tokens word
      loopTokensLoop (if previousCjk.isEmpty then tokens else tokens ++ [previousCjk ++ raw]) []
        raw rest
    else loopTokensLoop (flushWord tokens word) [] [] rest

/-- Lowercase ASCII words and pairs of neighbouring CJK characters. -/
def loopTokens : List Bytes := loopTokensLoop [] [] [] (codepoints text)

def trigrams : List Bytes → List Bytes
  | a :: b :: c :: rest => (a ++ [0x20] ++ b ++ [0x20] ++ c) :: trigrams (b :: c :: rest)
  | _ => []

def countGram (counts : List (Bytes × ℕ)) (gram : Bytes) : List (Bytes × ℕ) :=
  if counts.any (fun entry => entry.1 == gram) then
    counts.map fun entry => if entry.1 == gram then (entry.1, entry.2 + 1) else entry
  else counts ++ [(gram, 1)]

def firsts (grams : List Bytes) : List Bytes :=
  grams.foldl (fun seen gram => if seen.contains gram then seen else seen ++ [gram]) []

/-- The two content trigrams that most replies use, of those that two or more use. -/
def repeatedPhrases (replies : List Bytes) : List Bytes :=
  let counts := replies.foldl
    (fun counts reply => (firsts (trigrams (loopTokens reply))).foldl countGram counts) []
  -- The insertion sort is stable, as the source's sort is.
  let sorted := counts.insertionSort fun a b => b.2 ≤ a.2
  ((sorted.takeWhile fun entry => decide (2 ≤ entry.2)).take 2).map Prod.fst

def endsWithQuestion (reply : Bytes) : Bool :=
  let reply := reply.rdropWhile isBlank
  decide (reply.getLast? = some 0x3F) || [0xEF, 0xBC, 0x9F].isSuffixOf reply

/-- A prefix of at most `maxBytes` bytes that ends between two code points. -/
def utf8Prefix (maxBytes : ℕ) : Bytes :=
  if text.length ≤ maxBytes then text
  else text.take (((findLast (fun index => !(text[index]?).any fun byte => byte &&& 0xC0 == 0x80)
    (maxBytes + 1))).getD 0)

def aiProbeNote : String :=
  "They are teasing that you might be artificial: brush it off in one short playful sentence " ++
    "WITHOUT using the words AI, bot, or robot yourself, then change the subject."

def memoryCheckNote : String :=
  "This is a memory check. Search the conversation above for what THEY said and answer with their " ++
    "detail, speaking of it as theirs; if it is not in the conversation any more, playfully " ++
    "admit that you lost it -- never claim they did not tell you, never guess."

def messageNotes (latestUser : Bytes) : List Bytes :=
  (if isAiProbe latestUser then [bytes aiProbeNote] else []) ++
  (if containsCi latestUser (bytes "third person") || contains latestUser (bytes "第三人称") then
    [bytes "They asked for third person: playfully refuse and keep speaking as I."] else []) ++
  (if isMemoryCheck latestUser then [bytes memoryCheckNote] else [])

def lastTwo (recent : List Bytes) : Option (Bytes × Bytes) :=
  match recent.reverse with
  | last :: previous :: _ => some (last, previous)
  | _ => none

def openerBan (recent : List Bytes) : List Bytes :=
  match lastTwo recent with
  | none => []
  | some (last, previous) =>
    if firstWord last ≠ [] ∧ firstWord last = firstWord previous then
      [bytes "Do not begin your reply with '" ++ firstWord last ++ bytes "'."]
    else []

/-- The bans on the model's own habits, worst first. -/
def banNotes (recent : List Bytes) : List Bytes :=
  (if (recent.drop (recent.length - 4)).any hasFiller then
    [bytes "Do not use aiya or 哎呀 this turn."] else []) ++
  (if (recent.getLast?).any mentionsAi then
    [bytes "Do not mention AI, bots, or robots this turn."] else []) ++
  (if (lastTwo recent).any (fun pair => endsWithQuestion pair.1 && endsWithQuestion pair.2) then
    [bytes "End this reply with a warm statement, not a question."] else []) ++
  openerBan recent ++
  (repeatedPhrases recent).map fun gram =>
    bytes "Never say '" ++ gram ++ bytes "' again; find fresh wording and fresh ideas."

def chinesePin : Bytes := bytes "这一轮必须用中文回答。"

def snippetOf (latestUser : Bytes) : Bytes :=
  (utf8Prefix latestUser 160).map fun ch =>
    if ch == 0x0A then 0x20 else if ch == 0x22 then 0x27 else ch

def turnAnchor (latestUser : Bytes) (recentAssistant : List Bytes) : Bytes :=
  let zh := mostlyCjk latestUser 3 10
  -- At most three bans: a wall of them gets quoted back instead of followed.
  let extras := messageNotes latestUser ++ (banNotes recentAssistant).take 3
  let switched := !zh && (recentAssistant.getLast?).any fun reply => mostlyCjk reply 1 2
  if extras.isEmpty && !switched then
    if zh then chinesePin else bytes "Reply in English sentences only, with no pinyin."
  else
    (if zh then bytes "对方刚刚说的是：「" ++ snippetOf latestUser ++ bytes "」。直接回应这句话。"
      else bytes "Their newest message is: '" ++ snippetOf latestUser ++
        bytes "' -- answer exactly that.") ++
    extras.flatMap (fun extra => 0x20 :: extra) ++
    if zh then 0x20 :: chinesePin
    else (if switched then bytes (" The conversation just switched: even though your last reply " ++
        "was in Chinese, this message is in English -- switch back to English NOW.") else []) ++
      bytes (" This reply MUST be written in English sentences only -- no Chinese sentences and " ++
        "no pinyin.")

/-! ## The stream scrubber -/

/-- The state of the scrubber with what it holds back. -/
inductive ScrubState
  | clean
  | star (held : Bytes)
  | fullParen (held body : Bytes)
  | angleOpen
  | dead
  deriving DecidableEq, Repr

def scrubClean (ch : UInt8) : Bytes × ScrubState :=
  if ch == 0x2A then ([], .star [ch])
  else if ch == 0x3C then ([], .angleOpen)
  else if ch == 0xEF then ([], .fullParen [ch] [])
  else ([ch], .clean)

/-- What one byte releases, and the state afterwards. -/
def scrubByte (state : ScrubState) (ch : UInt8) : Bytes × ScrubState :=
  match state with
  | .dead => ([], .dead)
  | .clean => scrubClean ch
  | .star held =>
    let held := held ++ [ch]
    if ch == 0x2A then ([], .clean)
    else if ch == 0x0A || decide (120 < held.length) then (held, .clean)
    else ([], .star held)
  | .fullParen held body =>
    let held := held ++ [ch]
    if held.length = 3 then
      if held = fullParenOpen then ([], .fullParen held []) else (held, .clean)
    else if 3 < held.length then
      let body := body ++ [ch]
      if contains body fullParenClose then ([], .clean)
      else if 120 < body.length then (held, .clean)
      else ([], .fullParen held body)
    else ([], .fullParen held body)
  | .angleOpen =>
    if ch == 0x7C then ([], .dead)
    -- The byte is looked at once more, but a wide parenthesis is not looked for.
    else if ch == 0x2A then ([0x3C], .star [ch])
    else if ch == 0x3C then ([0x3C], .angleOpen)
    else ([0x3C, ch], .clean)

structure StreamScrubber where
  state : ScrubState
  deriving DecidableEq, Repr

namespace StreamScrubber

def new : StreamScrubber := ⟨.clean⟩

def feed (s : StreamScrubber) : Bytes → Bytes × StreamScrubber
  | [] => ([], s)
  | ch :: delta =>
    let next := feed ⟨(scrubByte s.state ch).2⟩ delta
    ((scrubByte s.state ch).1 ++ next.1, next.2)

/-- An unterminated span is dropped. -/
def flush (s : StreamScrubber) : Bytes × StreamScrubber :=
  (if s.state = .angleOpen then [0x3C] else [], ⟨.clean⟩)

theorem feed_append (s : StreamScrubber) (a b : Bytes) :
    s.feed (a ++ b) = ((s.feed a).1 ++ ((s.feed a).2.feed b).1, ((s.feed a).2.feed b).2) := by
  induction a generalizing s with
  | nil => rfl
  | cons ch a ih => simp only [List.cons_append, feed, ih, List.append_assoc]

theorem feed_dead (delta : Bytes) : (⟨.dead⟩ : StreamScrubber).feed delta = ([], ⟨.dead⟩) := by
  induction delta with
  | nil => rfl
  | cons ch delta ih => simp only [feed, scrubByte, ih, List.append_nil]

end StreamScrubber

end FastTts.Hygiene
