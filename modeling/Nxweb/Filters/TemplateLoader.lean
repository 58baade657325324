import Nxweb.Bytes
import Nxweb.Lib.Machine

/-!
# Loading template files

The templates filter (`filters/templates_filter.c`) collects the file it is applied to, and every
file that this one extends, uses or includes, before it merges them. The files are loaded by
subrequests that run at the same time. Each has a `tf_buffer`, but all of these collect into the
one `nxb` arena of the template context: a fragment is appended to the unfinished stream of the
arena, and at the end of a file `nxb_finish_stream` takes the whole stream.

Model of `tf_buffer_init`, `tf_buffer_data_in_write`, `tf_on_subrequest_ready`, `tf_load` and
`tf_check_complete`, with the stream operations of `nx_buffer.h`. Memory is available when it is
asked for. What `nxt_parse_file` finds in a file is part of the event: the files it makes the
context load, and whether it ends with an error. The records of files and blocks are not modeled;
what is passed to the parser, or appended to a block, is kept in a list.

## Main definitions

* `NxbBuffer`: the stream of an arena;
* `TfBuffer`, `TfContext`: a file that is being loaded, and the context;
* `TfEvent`, `tfStep`: the machine.
-/

namespace Nxweb

/-! ### The arena -/

/-- An `nxb_buffer`, seen as the bytes between `base` and `ptr`. Objects are allocated from the
other end of a chunk, and a new chunk takes the unfinished bytes along. -/
structure NxbBuffer where
  unfinished : List UInt8 := []
  deriving DecidableEq, Repr

/-- `nxb_make_room`, a copy to the place it makes, and `nxb_blank_fast`. -/
def NxbBuffer.append (nxb : NxbBuffer) (data : List UInt8) : NxbBuffer :=
  { nxb with unfinished := nxb.unfinished ++ data }

/-- `nxb_finish_stream`. -/
def NxbBuffer.finishStream (nxb : NxbBuffer) : List UInt8 × NxbBuffer :=
  (nxb.unfinished, { nxb with unfinished := [] })

/-- `nxb_unfinish_stream`. -/
def NxbBuffer.unfinishStream (nxb : NxbBuffer) : NxbBuffer := { nxb with unfinished := [] }

/-- `nxb_start_stream`: a stream that was left unfinished is dropped, with a warning. -/
def NxbBuffer.startStream (nxb : NxbBuffer) : NxbBuffer :=
  if nxb.unfinished ≠ [] then nxb.unfinishStream else nxb

/-! ### Files being loaded -/

/-- `MAX_TEMPLATE_SIZE`. -/
def maxTemplateSize : ℕ := 20000000

/-- Where the content of a file goes: to the parser, or to the block that includes it. -/
inductive TfTarget where
  | file
  | block
  deriving DecidableEq, Repr

/-- `tf_buffer`. `received` are the bytes of the file that have reached it, `ended` says that the
end of the file has, and `failed` that its subrequest has failed. -/
structure TfBuffer where
  target : TfTarget
  paired : Bool := false
  overflow : Bool := false
  dataSize : ℕ := 0
  received : List UInt8 := []
  ended : Bool := false
  failed : Bool := false
  deriving DecidableEq, Repr

/-- `tf_filter_data` with its `nxt_context`. `passed` are the contents that were passed on, each
with the number of the buffer, and `merges` counts how often the context was merged. -/
structure TfContext where
  nxb : NxbBuffer := {}
  tfbs : List TfBuffer := []
  filesPending : ℤ := 0
  error : Bool := false
  passed : List (ℕ × List UInt8) := []
  merges : ℕ := 0
  deriving DecidableEq, Repr

/-- The context when the filter is applied: the file itself is the first one, and its stream is
connected at once (`tf_do_filter`). -/
def TfContext.init : TfContext where
  tfbs := [{ target := .file, paired := true }]
  filesPending := 1

/-- `tf_check_complete`. -/
def TfContext.checkComplete (ctx : TfContext) : TfContext :=
  if ctx.filesPending = 0 then { ctx with merges := ctx.merges + 1 } else ctx

/-- `tf_load`, for a subrequest that can be started. Its buffer starts a stream in the arena that
it shares with the others. -/
def TfContext.load (ctx : TfContext) (target : TfTarget) : TfContext :=
  { ctx with
    nxb := ctx.nxb.startStream
    tfbs := ctx.tfbs ++ [{ target }]
    filesPending := ctx.filesPending + 1 }

/-- What the parser finds in a file: the files to load, up to an error if there is one. -/
structure ParseOutcome where
  loads : List TfTarget := []
  ok : Bool := true
  deriving DecidableEq, Repr

/-- `nxt_parse_file`. -/
def TfContext.parseFile (ctx : TfContext) (outcome : ParseOutcome) : TfContext :=
  let ctx := outcome.loads.foldl TfContext.load ctx
  { ctx with error := ctx.error || !outcome.ok, filesPending := ctx.filesPending - 1 }

/-- The end of the file of buffer `id`. -/
def TfContext.finishFile (ctx : TfContext) (id : ℕ) (tfb : TfBuffer) (outcome : ParseOutcome) :
    TfContext :=
  if tfb.overflow then
    { ctx with
      nxb := ctx.nxb.unfinishStream, error := true, filesPending := ctx.filesPending - 1 }
  else
    let (content, nxb) := ctx.nxb.finishStream
    let ctx := { ctx with nxb, passed := ctx.passed ++ [(id, content)] }
    match tfb.target with
    | .file => ctx.parseFile outcome
    | .block => { ctx with filesPending := ctx.filesPending - 1 }

/-- A fragment is collected: the part of it that fits goes to the arena. -/
def TfContext.collect (ctx : TfContext) (tfb : TfBuffer) (data : List UInt8) :
    TfContext × TfBuffer :=
  if tfb.overflow then (ctx, tfb)
  else
    let data := data.take (maxTemplateSize - tfb.dataSize)
    if data = [] then (ctx, tfb)
    else
      ({ ctx with nxb := ctx.nxb.append data },
        { tfb with
          dataSize := tfb.dataSize + data.length
          overflow := maxTemplateSize ≤ tfb.dataSize + data.length })

/-- `tf_buffer_data_in_write` for buffer `id`. All of `data` is taken, whatever happens to it. -/
def TfContext.dataInWrite (ctx : TfContext) (id : ℕ) (tfb : TfBuffer) (data : List UInt8)
    (eof : Bool) (outcome : ParseOutcome) : TfContext :=
  let (ctx, tfb) := ctx.collect tfb data
  let tfb := { tfb with received := tfb.received ++ data, ended := eof }
  let ctx := { ctx with tfbs := ctx.tfbs.set id tfb }
  if eof then (ctx.finishFile id tfb outcome).checkComplete else ctx

/-! ### The machine -/

/-- What happens to buffer `id`: its subrequest is ready, with a body or without, or has failed,
which may also happen later; or a fragment of its file arrives. -/
inductive TfEvent where
  | ready (id : ℕ)
  | emptyResponse (id : ℕ)
  | failed (id : ℕ)
  | write (id : ℕ) (data : List UInt8) (eof : Bool) (outcome : ParseOutcome)
  deriving DecidableEq, Repr

/-- One event. `ready`, `emptyResponse` and `failed` are the branches of
`tf_on_subrequest_ready`. The stream of a failed subrequest stays connected. -/
def tfStep (ctx : TfContext) (e : TfEvent) : Option TfContext :=
  match e with
  | .ready id =>
    ctx.tfbs[id]?.map fun tfb => { ctx with tfbs := ctx.tfbs.set id { tfb with paired := true } }
  | .emptyResponse id =>
    ctx.tfbs[id]?.map fun _ =>
      { ctx with filesPending := ctx.filesPending - 1 : TfContext }.checkComplete
  | .failed id =>
    ctx.tfbs[id]?.map fun tfb =>
      { ctx with
        nxb := ctx.nxb.unfinishStream
        tfbs := ctx.tfbs.set id { tfb with failed := true }
        filesPending := ctx.filesPending - 1 : TfContext }.checkComplete
  | .write id data eof outcome =>
    ctx.tfbs[id]?.bind fun tfb =>
      if tfb.paired ∧ ¬ tfb.ended then some (ctx.dataInWrite id tfb data eof outcome) else none

end Nxweb
