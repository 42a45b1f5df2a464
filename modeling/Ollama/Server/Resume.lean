import Ollama.Blob.Cache
import Ollama.Lib.System

/-!
# Downloads that are taken up again

`server/download.go`: a blob is downloaded in parts into one file, `-partial`, and what is there of each part is kept
in a file of its own, `-partial-N`. An attempt finds these files, takes the parts and the size of the blob from them,
or from a HEAD request where there is none, downloads what is missing, removes the files and renames `-partial`.

The registry serves one blob, and honours `Range`. An attempt goes step by step, and stops at any of them, or is
stopped with the process: a write is a step, and a file of a part is written in two, for it is emptied before. A write
of data has any length, so it may be cut off anywhere. The goroutines of the parts run in any order.
-/

namespace Ollama.Server

open Lib

/-- `blobDownloadPart`. -/
structure Part where
  n : Nat
  offset : Nat
  size : Nat
  completed : Nat
  deriving DecidableEq

/-- The size of the parts, between `minDownloadPartSize` and `maxDownloadPartSize`. -/
def partSize (total : Nat) : Nat :=
  let size := total / 16
  if size < 100 * 1000 * 1000 then 100 * 1000 * 1000 else if size > 1000 * 1000 * 1000 then 1000 * 1000 * 1000 else size

/-- The loop of `Prepare` that makes the parts. -/
def newParts (total : Nat) : (fuel size offset n : Nat) → List Part
  | 0, _, _, _ => []
  | fuel + 1, size, offset, n =>
    if offset < total then
      let size := if offset + size > total then total - offset else size
      ⟨n, offset, size, 0⟩ :: newParts total fuel size (offset + size) (n + 1)
    else []

/-- The parts of a blob. -/
def partsOf (total : Nat) : List Part := newParts total total (partSize total) 0 0

/-- The files of the parts, by their numbers, where nothing stands for one that cannot be decoded; the file
`-partial`; and the blob. -/
structure PullDisk where
  files : List (Nat × Option Part)
  data : Option Bytes
  blob : Option Bytes
  deriving DecidableEq

/-- The files of the parts are read, until one cannot be. -/
def readParts : List (Nat × Option Part) → Option (List Part)
  | [] => some []
  | (_, none) :: _ => none
  | (_, some part) :: files => (readParts files).map (part :: ·)

/-- The file of a part has another content, or is new. -/
def setFile (files : List (Nat × Option Part)) (n : Nat) (content : Option Part) : List (Nat × Option Part) :=
  if n ∈ files.map Prod.fst then files.map (fun f => if f.1 = n then (n, content) else f) else files ++ [(n, content)]

/-- `Truncate`. -/
def resize (file : Bytes) (n : Nat) : Bytes := file.take n ++ List.replicate (n - file.length) 0

/-- Where the goroutine of a part stands. -/
inductive ChunkPhase where
  /-- in `io.CopyN`, with the bytes it has written -/
  | copy (k : Nat)
  /-- in `writePart`, before the file is emptied -/
  | openFile
  /-- in `writePart`, before the part is written -/
  | encode
  | ended
  deriving DecidableEq

/-- A part that is downloaded. -/
structure Chunk where
  part : Part
  phase : ChunkPhase
  deriving DecidableEq

/-- A part that is complete is not downloaded. -/
def Chunk.start (part : Part) : Chunk := ⟨part, if part.completed = part.size then .ended else .copy 0⟩

/-- Where an attempt stands. -/
inductive Attempt where
  /-- none is going on -/
  | idle
  /-- in `Prepare`, before the HEAD request -/
  | head
  /-- in `newPart`, before a file is made, with the parts to be made and those that are -/
  | create (todo made : List Part)
  /-- in `newPart`, before the part is written -/
  | encode (part : Part) (todo made : List Part)
  /-- in `run`, before `os.OpenFile` -/
  | openFile (parts : List Part)
  /-- in `run`, before `Truncate` -/
  | truncate (parts : List Part)
  /-- in `run`, the goroutines of the parts -/
  | download (chunks : List Chunk)
  /-- in `run`, before the `i`th of `n` files is removed -/
  | remove (i n : Nat)
  /-- in `run`, before `os.Rename` -/
  | rename
  /-- `Prepare` and `run` have returned nil -/
  | done
  /-- `Prepare` or `run` has returned an error -/
  | failed
  deriving DecidableEq

/-- A disk and an attempt. -/
structure Pull where
  disk : PullDisk
  attempt : Attempt
  deriving DecidableEq

/-- What can happen next. -/
inductive PullAct where
  /-- an attempt begins: `Prepare` reads the files of the parts -/
  | start
  /-- the attempt steps -/
  | step
  /-- the goroutine of a part writes some bytes -/
  | copy (i j : Nat)
  /-- the goroutine of a part steps -/
  | chunk (i : Nat)
  /-- the copy of a part ends early with an error after which it is resumed -/
  | resume (i : Nat)
  /-- the copy of a part fails with another error, and what it has written does not count -/
  | rollback (i : Nat)
  /-- the attempt returns an error, or the process stops -/
  | stop

/-- An act without a failure. -/
def PullAct.clean : PullAct → Bool
  | .start | .step | .copy _ _ | .chunk _ => true
  | .resume _ | .rollback _ | .stop => false

namespace Pull

/-- `Prepare`, up to where it has the parts of the files. -/
def prepare (disk : PullDisk) : Attempt :=
  match readParts disk.files with
  | none => .failed
  | some [] => .head
  | some parts => .openFile parts

/-- The next step of an attempt. -/
def next (blob : Bytes) (disk : PullDisk) : Attempt → Option Pull
  | .head => some ⟨disk, .create (partsOf blob.length) []⟩
  | .create [] made => some ⟨disk, .openFile made⟩
  | .create (part :: todo) made => some ⟨{ disk with files := setFile disk.files part.n none }, .encode part todo made⟩
  | .encode part todo made => some ⟨{ disk with files := setFile disk.files part.n (some part) },
      .create todo (made ++ [part])⟩
  | .openFile parts => some ⟨{ disk with data := some (disk.data.getD []) }, .truncate parts⟩
  | .truncate parts =>
    some ⟨{ disk with data := disk.data.map (fun f => resize f (parts.map Part.size).sum) },
      .download (parts.map Chunk.start)⟩
  | .download chunks => if ∀ c ∈ chunks, c.phase = .ended then some ⟨disk, .remove 0 chunks.length⟩ else none
  | .remove i n =>
    if i < n then
      if i ∈ disk.files.map Prod.fst then some ⟨{ disk with files := disk.files.filter (fun f => f.1 ≠ i) },
        .remove (i + 1) n⟩
      else some ⟨disk, .failed⟩
    else some ⟨disk, .rename⟩
  | .rename =>
    match disk.data with
    | none => some ⟨disk, .failed⟩
    | some f => some ⟨{ disk with data := none, blob := some f }, .done⟩
  | .idle | .done | .failed => none

/-- The next step of the goroutine of a part. -/
def nextChunk (disk : PullDisk) (c : Chunk) : Option (PullDisk × Chunk) :=
  match c.phase with
  | .copy k =>
    if c.part.completed + k = c.part.size
      then some (disk, ⟨{ c.part with completed := c.part.completed + k }, .openFile⟩) else none
  | .openFile => some ({ disk with files := setFile disk.files c.part.n none }, { c with phase := .encode })
  | .encode => some ({ disk with files := setFile disk.files c.part.n (some c.part) }, Chunk.start c.part)
  | .ended => none

/-- The goroutine of a part writes some bytes that it gets from the registry. -/
def copy (blob : Bytes) (disk : PullDisk) (c : Chunk) (j : Nat) : Option (PullDisk × Chunk) :=
  match c.phase with
  | .copy k =>
    let start := c.part.offset + c.part.completed + k
    if 0 < j ∧ c.part.completed + k + j ≤ c.part.size then
      some ({ disk with data := disk.data.map (fun f => Blob.writeAt f start ((blob.drop start).take j)) },
        { c with phase := .copy (k + j) })
    else none
  | _ => none

/-- The copy of a part ends early. -/
def cut (c : Chunk) (kept : Bool) : Option Chunk :=
  match c.phase with
  | .copy k =>
    if c.part.completed + k < c.part.size then
      some (if kept then ⟨{ c.part with completed := c.part.completed + k }, .openFile⟩ else { c with
        phase := .copy 0 })
    else none
  | _ => none

/-- The goroutine of a part does something. -/
def onChunk (s : Pull) (i : Nat) (f : Chunk → Option (PullDisk × Chunk)) : Option Pull :=
  match s.attempt with
  | .download chunks => (chunks[i]?).bind (fun c => (f c).map (fun out => ⟨out.1, .download (chunks.set i out.2)⟩))
  | _ => none

/-- The state after an act. -/
def act (blob : Bytes) (s : Pull) : PullAct → Option Pull
  | .start => if s.attempt = .idle then some ⟨s.disk, prepare s.disk⟩ else none
  | .step => next blob s.disk s.attempt
  | .copy i j => s.onChunk i (fun c => copy blob s.disk c j)
  | .chunk i => s.onChunk i (nextChunk s.disk)
  | .resume i => s.onChunk i (fun c => (cut c true).map (fun c' => (s.disk, c')))
  | .rollback i => s.onChunk i (fun c => (cut c false).map (fun c' => (s.disk, c')))
  | .stop => some ⟨s.disk, .idle⟩

end Pull

/-- Any number of attempts to download a blob. -/
def pulls (blob : Bytes) : Machine Pull PullAct where
  init s := s = ⟨⟨[], none, none⟩, .idle⟩
  act := Pull.act blob

end Ollama.Server
