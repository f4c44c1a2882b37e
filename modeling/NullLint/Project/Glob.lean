import NullLint.Project.FilePath

/-!
# Globs

A pattern has to match a whole path. `?` and a class such as `[a-c]` match one byte, `*` any
bytes, also slashes; `**/` in front matches any folders, `/**` at the end everything below a
folder, `/**/` any folders between; `{a,b}` matches one of several patterns; `\` takes the
next character as it is.

Patterns are matched by the bytes of paths. All rests of a path that a pattern can leave are
followed at once, so the work grows with the product of the two lengths.

Patterns are used in sets. A set is refused if a pattern in it is malformed or nested too deep.
-/

namespace NullLint

/-- An element of a pattern. -/
inductive GlobToken where
  | literal (c : Char)
  /-- `?` -/
  | anyByte
  /-- `*` -/
  | anyBytes
  /-- `**/` in front -/
  | leadingFolders
  /-- `/**` at the end -/
  | everythingBelow
  /-- `/**/` -/
  | innerFolders
  /-- `[a-c]`, `[!a-c]` -/
  | byteClass (negated : Bool) (ranges : List (Char × Char))
  /-- `{a,b}`, with the branches that stand for something -/
  | oneOf (branches : List (List GlobToken))
  deriving Repr, Inhabited

/-- Whether a token stands for nothing: a group without branches. -/
def GlobToken.isIdle : GlobToken → Bool
  | .oneOf [] => true
  | _ => false

/-- What can be wrong with a pattern. -/
inductive GlobError where
  | unclosedClass
  | reversedRange
  | unopenedGroup
  | unclosedGroup
  | danglingEscape
  deriving DecidableEq, Repr

/-- Why patterns do not make a set. -/
inductive GlobsError where
  | malformed (pattern : String)
  | tooDeep
  deriving DecidableEq, Repr

def GlobsError.message : GlobsError → String
  | .malformed pattern => s!"invalid glob pattern '{pattern}'"
  | .tooDeep => "failed to build glob set"

/-- A pattern. -/
structure Glob where
  tokens : List GlobToken
  deriving Repr

/-! ## Reading -/

namespace Glob

/-- A group that is being read: its finished branches and the current one, last element first. -/
structure Frame where
  branches : List (List GlobToken) := []
  current : List GlobToken := []

/-- What has been read: the innermost group and those around it. -/
structure Reading where
  top : Frame := {}
  around : List Frame := []

namespace Reading

/-- Whether a group is open. -/
def inGroup (r : Reading) : Bool := !r.around.isEmpty

def push (r : Reading) (t : GlobToken) : Reading :=
  { r with top := { r.top with current := t :: r.top.current } }

def pushAll (r : Reading) (ts : List GlobToken) : Reading := ts.foldl push r

def openGroup (r : Reading) : Reading := ⟨{}, r.top :: r.around⟩

/-- Ends a branch; outside a group a comma is a literal. -/
def comma (r : Reading) : Reading :=
  if r.inGroup then
    { r with top := ⟨r.top.current.reverse :: r.top.branches, []⟩ }
  else r.push (.literal ',')

/-- Ends a group; branches that stand for nothing are left out. -/
def closeGroup (r : Reading) : Except GlobError Reading :=
  match r.around with
  | [] => .error .unopenedGroup
  | frame :: around =>
    let branches := (r.top.current.reverse :: r.top.branches).reverse
    .ok (push ⟨frame, around⟩ (.oneOf (branches.filter fun b => !b.all GlobToken.isIdle)))

/-- The pattern, once everything is read. -/
def finish (r : Reading) : Except GlobError Glob :=
  if r.inGroup then .error .unclosedGroup else .ok ⟨r.top.current.reverse⟩

/-- Puts a `**` that stands after a slash in the place of that slash. -/
def absorbSlash (r : Reading) (t : GlobToken) : Reading :=
  match r.top.current with
  | .leadingFolders :: _ | .everythingBelow :: _ => r
  | _ :: before => { r with top := { r.top with current := t :: before } }
  | [] => r.push t

end Reading

/-- The end of a class: its ranges so far, last one first, and whether a dash waits for the end
of a range. -/
def classRanges (ranges : List (Char × Char)) (dash : Bool) :
    List Char → Except GlobError (List (Char × Char) × List Char)
  | [] => .error .unclosedClass
  | c :: cs =>
    match ranges with
    | [] => classRanges [(c, c)] false cs
    | (low, high) :: before =>
      if c = ']' then .ok ((if dash then ('-', '-') :: ranges else ranges).reverse, cs)
      else if dash then
        if c < low then .error .reversedRange else classRanges ((low, c) :: before) false cs
      else if c = '-' then classRanges ((low, high) :: before) true cs
      else classRanges ((c, c) :: ranges) false cs

theorem length_classRanges {ranges ranges' : List (Char × Char)} {dash : Bool}
    {cs rest : List Char} (h : classRanges ranges dash cs = .ok (ranges', rest)) :
    rest.length < cs.length := by
  induction cs generalizing ranges dash with
  | nil => simp [classRanges] at h
  | cons c cs ih =>
    cases ranges with
    | nil => exact Nat.lt_succ_of_lt (ih h)
    | cons r before =>
      simp only [classRanges] at h
      split at h
      · obtain ⟨_, rfl⟩ := Prod.mk.inj (Except.ok.inj h)
        simp
      · split at h
        · split at h
          · simp at h
          · exact Nat.lt_succ_of_lt (ih h)
        · split at h
          · exact Nat.lt_succ_of_lt (ih h)
          · exact Nat.lt_succ_of_lt (ih h)

/-- Whether a class is negated, and its text. -/
def classSign : List Char → Bool × List Char
  | '!' :: cs => (true, cs)
  | '^' :: cs => (true, cs)
  | cs => (false, cs)

theorem length_classSign_le (cs : List Char) : (classSign cs).2.length ≤ cs.length := by
  unfold classSign
  split <;> simp

/-- Whether `**` is followed by the end of its branch. -/
def endsBranch (r : Reading) : List Char → Bool
  | [] => true
  | c :: _ => r.inGroup && (c == ',' || c == '\x7d')

/-- Reads `**`, given the character before it and the text behind it; a slash behind it may
belong to it. -/
def doubleStar (r : Reading) (before : Option Char) (rest : List Char) : Reading × List Char :=
  let plain := (r.pushAll [.anyBytes, .anyBytes], rest)
  if r.top.current.isEmpty then
    match rest with
    | [] => (r.push .leadingFolders, [])
    | '/' :: rest => (r.push .leadingFolders, rest)
    | _ => plain
  else if before == some '/' ||
      (r.inGroup && (before == some ',' || before == some '\x7b')) then
    if endsBranch r rest then (r.absorbSlash .everythingBelow, rest)
    else
      match rest with
      | '/' :: rest => (r.absorbSlash .innerFolders, rest)
      | _ => plain
  else plain

theorem length_doubleStar_le (r : Reading) (before : Option Char) (rest : List Char) :
    (doubleStar r before rest).2.length ≤ rest.length := by
  unfold doubleStar
  repeat' split
  all_goals simp

/-- The last of some characters read, or the one before them. -/
def lastRead (all rest : List Char) (before : Option Char) : Option Char :=
  (all.take (all.length - rest.length)).getLast?.or before

/-- Reads a pattern from a character on; `before` is the character before it. -/
def readFrom (r : Reading) (before : Option Char) (cs : List Char) : Except GlobError Glob :=
  match cs with
  | [] => r.finish
  | '?' :: rest => readFrom (r.push .anyByte) (some '?') rest
  | '*' :: '*' :: rest =>
    let step := doubleStar r before rest
    readFrom step.1 (lastRead rest step.2 (some '*')) step.2
  | '*' :: rest => readFrom (r.push .anyBytes) (some '*') rest
  | '[' :: rest =>
    match _h : classRanges [] false (classSign rest).2 with
    | .error e => .error e
    | .ok (ranges, after) =>
      readFrom (r.push (.byteClass (classSign rest).1 ranges)) (some ']') after
  | '\x7b' :: rest => readFrom r.openGroup (some '\x7b') rest
  | '\x7d' :: rest =>
    match r.closeGroup with
    | .error e => .error e
    | .ok r => readFrom r (some '\x7d') rest
  | ',' :: rest => readFrom r.comma (some ',') rest
  | '\\' :: c :: rest => readFrom (r.push (.literal c)) (some c) rest
  | ['\\'] => .error .danglingEscape
  | c :: rest => readFrom (r.push (.literal c)) (some c) rest
termination_by cs.length
decreasing_by
  · simp
  · have hle := length_doubleStar_le r before rest
    simp only [List.length_cons]
    omega
  · simp
  · have hlt := length_classRanges _h
    have hle := length_classSign_le rest
    simp only [List.length_cons]
    omega
  all_goals (simp only [List.length_cons]; omega)

/-- Reads a pattern. -/
def read (pattern : String) : Except GlobError Glob := readFrom {} none pattern.toList

end Glob

/-! ## Matching -/

/-- The bytes of a character. -/
def utf8Bytes (c : Char) : List UInt8 := (String.singleton c).toUTF8.toList

namespace GlobToken

/-- The bytes that a range of a class stands for: all bytes of its ends, and those between the
last byte of the lower and the first byte of the upper end. -/
def rangeHolds (range : Char × Char) (b : UInt8) : Bool :=
  let low := utf8Bytes range.1
  let high := utf8Bytes range.2
  low.contains b ||
    (range.1 != range.2 &&
      (high.contains b || ((low.getLast?.getD 0) ≤ b && b ≤ (high.head?.getD 0))))

/-- The rests of a path that start behind a slash. -/
def afterSlashes : List UInt8 → List (List UInt8)
  | [] => []
  | b :: bs => (if b = '/'.toUInt8 then [bs] else []) ++ afterSlashes bs

/-- All rests of a path. -/
def suffixes : List UInt8 → List (List UInt8)
  | [] => [[]]
  | b :: bs => (b :: bs) :: suffixes bs

/-- The rest behind a slash. -/
def behindSlash? : List UInt8 → Option (List UInt8)
  | b :: bs => if b = '/'.toUInt8 then some bs else none
  | [] => none

/-- The rests that a token other than a group can leave. -/
def rests (s : List UInt8) : GlobToken → List (List UInt8)
  | .literal c => if (utf8Bytes c).isPrefixOf s then [s.drop (utf8Bytes c).length] else []
  | .anyByte => s.tail?.toList
  | .anyBytes => suffixes s
  | .leadingFolders => s :: afterSlashes s
  | .everythingBelow => (behindSlash? s).toList.flatMap suffixes
  | .innerFolders => (behindSlash? s).toList.flatMap fun s => s :: afterSlashes s
  | .byteClass negated ranges =>
    match s with
    | b :: bs => if (ranges.any fun r => rangeHolds r b) != negated then [bs] else []
    | [] => []
  | .oneOf _ => [s]

mutual

/-- The rests that a token leaves of some rests. -/
def advance (front : List (List UInt8)) : GlobToken → List (List UInt8)
  | .oneOf [] => front
  | .oneOf branches => (advanceOneOf front branches).eraseDups
  | t => (front.flatMap fun s => rests s t).eraseDups

/-- The rests that several tokens leave, one after the other. -/
def advanceAll (front : List (List UInt8)) : List GlobToken → List (List UInt8)
  | [] => front
  | t :: ts => advanceAll (advance front t) ts

/-- The rests that the branches of a group leave. -/
def advanceOneOf (front : List (List UInt8)) : List (List GlobToken) → List (List UInt8)
  | [] => []
  | b :: bs => advanceAll front b ++ advanceOneOf front bs

end

def isLiteral : GlobToken → Bool
  | .literal _ => true
  | _ => false

def isLiteralOf (c : Char) : GlobToken → Bool
  | .literal d => c == d
  | _ => false

end GlobToken

namespace Glob

/-- Whether the tokens are one text, possibly behind a `*`. A dot behind a `*` is no text but an
extension. -/
def isEnding : List GlobToken → Bool
  | .anyBytes :: ts => ts.all GlobToken.isLiteral && ts.length != 1
  | ts => ts.all GlobToken.isLiteral

/-- Whether a pattern that ends in a dot is judged by the end of the path alone: one text,
possibly behind a `*`, or behind `**/` unless the text then is a name. -/
def isPlain : List GlobToken → Bool
  | .leadingFolders :: .anyBytes :: ts => isEnding (.anyBytes :: ts)
  | .leadingFolders :: ts =>
    ts.all GlobToken.isLiteral && ts.any (GlobToken.isLiteralOf '/')
  | ts => isEnding ts

/-- Whether the pattern asks for a name or an extension that ends in a dot. A path that ends in
`..` has neither. -/
def asksForFinalDot (g : Glob) : Bool :=
  g.tokens.getLast?.any (GlobToken.isLiteralOf '.') && !isPlain g.tokens

/-- Whether the pattern is `**` alone, which matches everything. -/
def isEverything (g : Glob) : Bool :=
  match g.tokens with
  | [.leadingFolders] => true
  | _ => false

/-- Whether the pattern matches a whole path. -/
def isMatch (g : Glob) (path : String) : Bool :=
  g.isEverything ||
    (!(g.asksForFinalDot && FilePath.endsInUp path) &&
      (GlobToken.advanceAll [path.toUTF8.toList] g.tokens).contains [])

/-- Whether one of several patterns matches. -/
def anyMatch (gs : List Glob) (path : String) : Bool := gs.any fun g => g.isMatch path

end Glob

/-! ## Depth

Groups, choices between several branches, sequences of several items, repetitions and classes
are levels. A folder pattern such as `**/` has four: it is a choice, in a group, between no
folder and the sequence of any bytes and a slash.
-/

namespace GlobToken

/-- The level of a sequence, choice or class, which it is only with several items. -/
def levelOf (items : Nat) : Nat := if 1 < items then 1 else 0

/-- How many bytes, or ranges of bytes, a range of a class is made of. -/
def rangeItems (range : Char × Char) : Nat :=
  if range.1 = range.2 then (utf8Bytes range.1).length
  else (utf8Bytes range.1).length + (utf8Bytes range.2).length - 1

/-- How many items a token puts into the sequence that it stands in. -/
def items : GlobToken → Nat
  | .literal c => (utf8Bytes c).length
  | .everythingBelow => 2
  | .oneOf [] => 0
  | _ => 1

mutual

/-- How deep the levels in a token are nested. -/
def depth : GlobToken → Nat
  | .literal _ => 0
  | .anyByte => 0
  | .anyBytes => 1
  | .leadingFolders => 4
  | .everythingBelow => 1
  | .innerFolders => 4
  | .byteClass _ ranges => levelOf (ranges.foldr (fun r n => rangeItems r + n) 0) + 1
  | .oneOf [] => 0
  | .oneOf branches => levelOf branches.length + depthOfBranches branches + 1

/-- The depth of the deepest of several tokens. -/
def depthOfAll : List GlobToken → Nat
  | [] => 0
  | t :: ts => Nat.max (depth t) (depthOfAll ts)

/-- The depth of the deepest of several branches, each of them a sequence. -/
def depthOfBranches : List (List GlobToken) → Nat
  | [] => 0
  | b :: bs =>
    Nat.max (levelOf (b.foldr (fun t n => items t + n) 0) + depthOfAll b) (depthOfBranches bs)

end

end GlobToken

namespace Glob

/-- How deep a pattern can be. -/
def maxDepth : Nat := 250

/-- The depth of a pattern, which is a sequence between the ends of the path. -/
def depth (g : Glob) : Nat := GlobToken.depthOfAll g.tokens + 1

/-! ## Sets -/

/-- Reads several patterns; the first bad one is given back. -/
def readEach : List String → Except GlobsError (List Glob)
  | [] => .ok []
  | p :: ps =>
    match read p with
    | .ok g => (readEach ps).map (g :: ·)
    | .error _ => .error (.malformed p)

/-- Reads a set of patterns. All of them are read before their depth counts. -/
def readAll (patterns : List String) : Except GlobsError (List Glob) :=
  match readEach patterns with
  | .ok gs => if gs.all fun g => g.depth ≤ maxDepth then .ok gs else .error .tooDeep
  | .error e => .error e

end Glob

end NullLint
