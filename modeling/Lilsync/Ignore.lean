import Lilsync.Entries
import Lilsync.Lib.Utf8

/-!
# Ignore rules

`ignore.rs`: the patterns of a `.nolil` file, what they match, and the built-in
exclusions.
-/

namespace Lilsync

open Lilsync.Lib

/-- `STATE_DIR`. -/
def stateDir : Str := lit ".lil"

/-- `IGNORE_FILE_NAME`. -/
def ignoreFileName : Str := lit ".nolil"

def ignoredFileNames : List Str := [lit ".DS_Store", lit "Thumbs.db", lit "Desktop.ini"]

def ignoredFilePrefixes : List Str := [lit "._"]

def ignoredDirNames : List Str :=
  [lit ".Spotlight-V100", lit ".Trashes", lit ".fseventsd", lit "$RECYCLE.BIN", lit "lost+found"]

/-- A line of a `.nolil` file. -/
structure IgnorePattern where
  pattern : Str
  negated : Bool
  directoryOnly : Bool
  anchored : Bool
  hasSlash : Bool
deriving DecidableEq, Repr

/-! ## Parsing -/

/-- `str::lines`: the last line may lack its newline, a line may end with `\r\n`. -/
def lines (contents : Str) : List Str :=
  let pieces := contents.splitOn 10
  let pieces := if pieces.getLast? = some [] then pieces.dropLast else pieces
  pieces.map fun line ↦ if line.getLast? = some 13 then line.dropLast else line

/-- The encodings of the characters `str::trim` strips. -/
def whiteSpace : List Str :=
  [[9], [10], [11], [12], [13], [32], [0xC2, 0x85], [0xC2, 0xA0], [0xE1, 0x9A, 0x80]]
    ++ (List.range 11).map (fun i ↦ [0xE2, 0x80, 0x80 + i.toUInt8])
    ++ [[0xE2, 0x80, 0xA8], [0xE2, 0x80, 0xA9], [0xE2, 0x80, 0xAF], [0xE2, 0x81, 0x9F],
      [0xE3, 0x80, 0x80]]

/-- Drop what `pieces` holds from the front, as often as it is there. -/
def stripStart (pieces : List Str) : Nat → Str → Str
  | 0, s => s
  | n + 1, s =>
    match pieces.find? (·.isPrefixOf s) with
    | some w => stripStart pieces n (s.drop w.length)
    | none => s

/-- `str::trim`. -/
def trim (s : Str) : Str :=
  let s := stripStart whiteSpace s.length s
  (stripStart (whiteSpace.map List.reverse) s.length s.reverse).reverse

/-- `parse_ignore_patterns` for one line. -/
def parseIgnorePattern (rawLine : Str) : Option IgnorePattern :=
  let line := trim rawLine
  if line = [] ∨ line.head? = some 35 then none
  else
    let negated := line.head? == some 33
    let line := if negated then line.drop 1 else line
    let directoryOnly := line.getLast? == some slash
    let line := if directoryOnly then (line.reverse.dropWhile (· == slash)).reverse else line
    let anchored := line.head? == some slash
    let line := if anchored then line.drop 1 else line
    if line = [] then none
    else some { pattern := line, negated, directoryOnly, anchored, hasSlash := line.contains slash }

/-- `parse_ignore_patterns`. -/
def parseIgnorePatterns (contents : Str) : List IgnorePattern :=
  (lines contents).filterMap parseIgnorePattern

/-! ## Matching -/

/-- `glob_match_bytes`: `**` stands for anything, `*` for anything without a
slash, `?` for one byte other than a slash. -/
def globMatch (pattern text : Str) : Bool :=
  match pattern, text with
  | [], text => text.isEmpty
  | 42 :: 42 :: rest, [] => globMatch rest []
  | 42 :: 42 :: rest, t :: text =>
    globMatch rest (t :: text) || globMatch (42 :: 42 :: rest) text
  | 42 :: rest, [] => globMatch rest []
  | 42 :: rest, t :: text =>
    globMatch rest (t :: text) || (t != slash && globMatch (42 :: rest) text)
  | _ :: _, [] => false
  | ch :: rest, t :: text =>
    if ch = 63 then t != slash && globMatch rest text
    else ch == t && globMatch rest text
termination_by (pattern.length + text.length)

/-- `directory_candidates`: the path and its ancestors, shortest first. -/
def directoryCandidates (relative : Str) : List Str :=
  let parts := relative.splitOn slash
  (List.range parts.length).map fun i ↦ [slash].intercalate (parts.take (i + 1))

/-- `path_suffix_candidates`: the path and what follows each of its slashes. -/
def pathSuffixCandidates : Str → List Str
  | [] => [[]]
  | relative@(_ :: _) => relative :: suffixesAfterSlash relative
where
  suffixesAfterSlash : Str → List Str
    | [] => []
    | c :: rest => if c = slash then rest :: suffixesAfterSlash rest else suffixesAfterSlash rest

/-- `matches_ignore_pattern`. -/
def matchesIgnorePattern (pattern : IgnorePattern) (relative : Str) : Bool :=
  let targets := if pattern.directoryOnly then directoryCandidates relative else [relative]
  targets.any fun target ↦
    if pattern.anchored then globMatch pattern.pattern target
    else if pattern.hasSlash then (pathSuffixCandidates target).any (globMatch pattern.pattern ·)
    else (target.splitOn slash).any (globMatch pattern.pattern ·)

/-- `matches_ignore_patterns`: the last matching pattern decides. -/
def matchesIgnorePatterns (patterns : List IgnorePattern) (relative : Str) : Bool :=
  patterns.foldl (fun ignored pattern ↦
    if matchesIgnorePattern pattern relative then !pattern.negated else ignored) false

/-- `should_ignore_component`: the built-in exclusions. -/
def shouldIgnoreComponent (name : Str) : Bool :=
  name == stateDir
    || ignoredFileNames.contains name
    || ignoredFilePrefixes.any (·.isPrefixOf name)
    || ignoredDirNames.contains name

/-- `Component::as_os_str`. -/
def Component.asOsStr : Component → Str
  | .rootDir => lit "/"
  | .curDir => lit "."
  | .parentDir => lit ".."
  | .normal name => name

/-- `should_ignore`. -/
def shouldIgnore (relative : Str) (ignorePatterns : List IgnorePattern) : Bool :=
  if relative = ignoreFileName then false
  else
    ((components relative).any fun c ↦ shouldIgnoreComponent (Utf8.lossy c.asOsStr))
      || matchesIgnorePatterns ignorePatterns relative

end Lilsync
