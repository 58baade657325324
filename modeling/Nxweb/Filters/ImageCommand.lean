import Nxweb.Bytes
import Nxweb.Lib.Decimal

/-!
# Image commands

Model of `decode_cmd` (`image_filter.c`). A command stands in front of the extension of a file name,
as in `photo.c500x500.png`: a letter, the width and the height, and what side to keep and what color
to fill with. `decode_cmd` reads it, takes it out of the URI and keeps copies of it, of the query
string and of the path.

The URI is a string, without its zero byte. Positions in it are offsets; a position that only moves
on is the rest of the string. Numbers are accumulated in an `int`, which wraps. What kind of file an
extension stands for is asked of the table of MIME types, a parameter here.
-/

namespace Nxweb

open Lib

/-- `strrchr`, as an offset. -/
def strrchr (c : UInt8) : List UInt8 → Option ℕ
  | [] => none
  | b :: s =>
    match strrchr c s with
    | some i => some (i + 1)
    | none => if b = c then some 0 else none

/-- `!strncmp`. -/
def strncmpZero : ℕ → List UInt8 → List UInt8 → Bool
  | 0, _, _ => true
  | n + 1, s, t =>
    s.headD 0 == t.headD 0 && (s.headD 0 == 0 || strncmpZero n s.tail t.tail)

/-- `WATERMARK_FILE_NAME`. -/
def watermarkFileName : List UInt8 := bytes "watermark.png"

/-- `nxweb_image_filter_cmd`. Of the MIME type only `image` is looked at. -/
structure ImageFilterCmd where
  cmd : UInt8 := 0
  dontWatermark : Bool := false
  gravityTop : Bool := false
  gravityRight : Bool := false
  gravityBottom : Bool := false
  gravityLeft : Bool := false
  width : ℤ := 0
  height : ℤ := 0
  /-- The bytes in front of the first zero. -/
  color : List UInt8 := []
  /-- A copy with a zero byte behind it. -/
  cmdString : Option (List UInt8) := none
  /-- A copy with a zero byte behind it. -/
  queryString : Option (List UInt8) := none
  /-- A copy of these bytes, and of nothing behind them. -/
  uriPath : Option (List UInt8) := none
  mtypeImage : Option Bool := none
  deriving DecidableEq, Repr

/-- What `decode_cmd` leaves: its value, the record and the URI. -/
structure DecodedUri where
  ret : Bool
  cmd : ImageFilterCmd
  uri : List UInt8
  deriving DecidableEq, Repr

/-- The loops that read `w` and `h`; none where a number begins with a zero. -/
def scanNumber (w : ℤ) : List UInt8 → Option (ℤ × List UInt8)
  | [] => some (w, [])
  | c :: cp =>
    if isDigit c then
      if c = 48 ∧ w = 0 then none
      else scanNumber ((w * 10 + digitVal c).bmod (2 ^ 32)) cp
    else some (w, c :: cp)

/-- `r` or `l`. -/
def scanSide (cmd : ImageFilterCmd) : List UInt8 → ImageFilterCmd × List UInt8
  | [] => (cmd, [])
  | c :: cp =>
    if c = 114 then ({ cmd with gravityRight := true }, cp)
    else if c = 108 then ({ cmd with gravityLeft := true }, cp)
    else (cmd, c :: cp)

/-- `t` or `b`, and then `r` or `l`. -/
def scanGravity (cmd : ImageFilterCmd) : List UInt8 → ImageFilterCmd × List UInt8
  | [] => (cmd, [])
  | c :: cp =>
    if c = 116 then scanSide { cmd with gravityTop := true } cp
    else if c = 98 then scanSide { cmd with gravityBottom := true } cp
    else scanSide cmd (c :: cp)

/-- The digits of a color. -/
def isColorDigit (c : UInt8) : Bool := isDigit c || (65 ≤ c && c ≤ 70)

/-- `for (i=1; i<=6; i++, cp++)`, with the turns that are left. -/
def scanColor : ℕ → ImageFilterCmd → List UInt8 → ImageFilterCmd × Option (List UInt8)
  | 0, cmd, cp => (cmd, some cp)
  | _ + 1, cmd, [] => (cmd, none)
  | n + 1, cmd, c :: cp =>
    if isColorDigit c then scanColor n { cmd with color := cmd.color ++ [c] } cp
    else (cmd, none)

/-- The part between the numbers and the dot in front of the extension. -/
def scanFill (c : UInt8) (cmd : ImageFilterCmd) (cp : List UInt8) : ImageFilterCmd × Bool :=
  if cp.headD 0 ≠ 46 then
    if c ≠ 102 ∧ c ≠ 99 then (cmd, false)
    else if cp.headD 0 ≠ 120 then (cmd, false)
    else
      match scanColor 6 { cmd with color := [35] } cp.tail with
      | (cmd, none) => (cmd, false)
      | (cmd, some cp) => (cmd, cp.headD 0 == 46)
  else (cmd, true)

/-- From the width on; `c` is the letter of the command. -/
def scanSize (c : UInt8) (cmd : ImageFilterCmd) (cp : List UInt8) : ImageFilterCmd × Bool :=
  match scanNumber 0 cp with
  | none => (cmd, false)
  | some (w, cp) =>
    if cp.headD 0 ≠ 120 then (cmd, false)
    else
      match scanNumber 0 cp.tail with
      | none => (cmd, false)
      | some (h, cp) =>
        let (cmd, cp) := if c = 99 ∨ c = 102 then scanGravity cmd cp else (cmd, cp)
        -- wildcards allowed for scale command only and only for one dimension
        if (c ≠ 115 ∧ (w = 0 ∨ h = 0)) ∨ (c = 115 ∧ w = 0 ∧ h = 0) then (cmd, false)
        else
          match scanFill c cmd cp with
          | (cmd, false) => (cmd, false)
          | (cmd, true) => ({ cmd with cmd := c, width := w, height := h }, true)

/-- From the byte behind the dot of the command on. -/
def scanCommand (cmd : ImageFilterCmd) (cp : List UInt8) : ImageFilterCmd × Bool :=
  let c := cp.headD 0
  if c = 99 ∨ c = 102 then scanSize c cmd cp.tail
  else if c = 120 ∨ (49 ≤ c ∧ c ≤ 57) then scanSize 115 cmd cp
  else (cmd, false)

/-- The loop over the dots of the file name. -/
def hasNoWatermark (filename : List UInt8) : Bool :=
  filename.tails.any fun p => (bytes ".nowmk").isPrefixOf p

/-- `decode_cmd`. -/
def decodeCmd (isImage : List UInt8 → Bool) (uri : List UInt8) : DecodedUri :=
  let q := uri.idxOf? 63
  -- the query is cut while the file name is looked for
  let path := uri.take (q.getD uri.length)
  let filename := (strrchr 47 path).elim 0 (· + 1)
  let fnlen := path.length - filename
  match (strrchr 46 (path.drop filename)).map (filename + ·) with
  | none => ⟨false, {}, uri⟩
  | some ext =>
    let image := isImage (path.drop (ext + 1))
    let cmd : ImageFilterCmd := { mtypeImage := some image }
    if image = false then ⟨false, cmd, uri⟩
    else if strncmpZero fnlen (uri.drop filename) watermarkFileName then
      ⟨false, { cmd with dontWatermark := true }, uri⟩
    else
      let cmd := { cmd with dontWatermark := hasNoWatermark (uri.drop filename) }
      match (strrchr 46 ((uri.take ext).drop filename)).map (filename + ·) with
      | none => ⟨false, cmd, uri⟩
      | some cc =>
        match scanCommand cmd (uri.drop (cc + 1)) with
        | (cmd, false) => ⟨false, cmd, uri⟩
        | (cmd, true) =>
          let uri' := uri.take cc ++ uri.drop ext
          let watermark := strncmpZero (fnlen - (ext - cc)) (uri'.drop filename) watermarkFileName
          ⟨true, { cmd with
            cmdString := some ((uri.drop cc).take (ext - cc))
            queryString := q.map fun q => uri.drop (q + 1)
            uriPath := some path
            dontWatermark := cmd.dontWatermark || watermark }, uri'⟩

end Nxweb
