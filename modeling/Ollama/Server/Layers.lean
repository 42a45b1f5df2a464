import Ollama.Lib.System
import Ollama.Server.Images

/-!
# Creating and deleting models

`server/layer.go`, `manifest.go`, and the handlers in `create.go` and `routes.go` that use them. A create request
makes a blob of each layer and of the config, unless it is there already, and then writes the manifest. A delete
request removes the manifest, and then each blob that it finds no manifest for; so does a create request with those of
the manifest that it has replaced, and, before its manifest is written, with the layers of its base whose place a
template, a system message, parameters or messages of its own take.

The requests run at the same time, and step by step: each step is one use of the file system. A manifest is a file
with a name in the directory, and a handle on the file stays good when the name is removed. A request may fail at any
step.
-/

namespace Ollama.Server

open Lib Utf8

/-- The directory of manifests, its files, and the blobs. A file that cannot be decoded has no manifest. -/
structure Disk where
  names : List (Bytes × Nat)
  files : List (Option Manifest)
  blobs : List (Bytes × Bytes)

namespace Disk

/-- `ParseNamedManifest`. -/
def parseNamedManifest (disk : Disk) (path : Bytes) : Option Manifest :=
  if isNamePath path then (disk.names.lookup path).bind (fun file => (disk.files[file]?).join) else none

/-- `os.Create`: an old file is emptied. -/
def create (disk : Disk) (path : Bytes) : Disk × Nat :=
  match disk.names.lookup path with
  | some file => ({ disk with files := disk.files.set file none }, file)
  | none => ({ disk with names := Assoc.set disk.names path disk.files.length, files := disk.files ++ [none] },
      disk.files.length)

/-- `os.Stat` finds the blob. -/
def hasBlob (disk : Disk) (fp : Bytes) : Bool := (disk.blobs.lookup fp).isSome

end Disk

/-- `Layer`: its media type and its digest. -/
structure Layer where
  mediaType : Bytes
  digest : Bytes
  deriving DecidableEq

/-- What a layer of a new model is made from. -/
inductive Source where
  /-- `NewLayer`: what the reader gives -/
  | reader (content : Bytes)
  /-- `NewLayerFromLayer`: a digest -/
  | layer (digest : Bytes)
  deriving DecidableEq

/-- What a create request does with its layers. -/
inductive LayerStep where
  /-- a layer is made, in the place of another or behind them all -/
  | make (mediaType : Bytes) (src : Source) (place : Option Nat)
  /-- `removeLayer`: the layers of a media type are dropped, and their blobs removed -/
  | remove (mediaType : Bytes)
  deriving DecidableEq

/-- `NewLayer` of a text, behind the layers that are there. -/
def layerOf (mediaType content : Bytes) : LayerStep := .make mediaType (.reader content) none

def modelType : Bytes := ascii "application/vnd.ollama.image.model"

/-- `setTemplate`. -/
def setTemplate (t : Bytes) : List LayerStep :=
  [.remove (ascii "application/vnd.ollama.image.template"), layerOf (ascii "application/vnd.ollama.image.template") t]

/-- `setSystem`. -/
def setSystem (s : Bytes) : List LayerStep :=
  .remove (ascii "application/vnd.ollama.image.system") ::
    (if s ≠ [] then [layerOf (ascii "application/vnd.ollama.image.system") s] else [])

/-- `setLicense`. -/
def setLicense (l : Bytes) : List LayerStep := [layerOf (ascii "application/vnd.ollama.image.license") l]

/-- `setParameters`, with what the encoder writes for them, unless there are none. -/
def setParameters (p : Option Bytes) : List LayerStep :=
  match p with
  | none => []
  | some b => [.remove (ascii "application/vnd.ollama.image.params"),
      layerOf (ascii "application/vnd.ollama.image.params") b]

/-- `setMessages`, with what the encoder writes for them, unless there are none. -/
def setMessages (m : Option Bytes) : List LayerStep :=
  match m with
  | none => []
  | some b => [.remove (ascii "application/vnd.ollama.image.messages"),
      layerOf (ascii "application/vnd.ollama.image.messages") b]

/-- `createConfigLayer`. -/
def createConfigLayer (config : Bytes) : LayerStep :=
  layerOf (ascii "application/vnd.docker.container.image.v1+json") config

/-- What a create request asks for. The layers of the model in `From` are given, as its manifest names them, and so
are those that `convertModelFromFiles` and `detectChatTemplate` make, the layers that `quantizeLayer` replaces, with
the place of each, and the encoded parameters, messages and config. -/
structure CreateRequest where
  path : Bytes
  fromModel : List Layer := []
  files : List (Bytes × Source) := []
  quantized : List (Nat × Bytes) := []
  template : Bytes := []
  system : Bytes := []
  license : List Bytes := []
  parameters : Option Bytes := none
  messages : Option Bytes := none
  config : Bytes
  noPrune : Bool := false
  deriving DecidableEq

/-- `createModel` up to the manifest, behind the layers of files and adapters. -/
def createModel (r : CreateRequest) : List LayerStep :=
  r.files.map (fun e => .make e.1 e.2 none) ++ r.quantized.map (fun e => .make modelType (.reader e.2) (some e.1)) ++
    (if r.template ≠ [] then setTemplate r.template else []) ++ (if r.system ≠ [] then setSystem r.system else []) ++
      r.license.flatMap setLicense ++ setParameters r.parameters ++ setMessages r.messages ++
      [createConfigLayer r.config]

/-- A create request that is making its layers: the manifest to be replaced, what `parseFromModel` has still to look
for, what is to be done then, and the layers that are made. -/
structure Creating where
  path : Bytes
  old : Option Manifest
  fromModel : List Layer
  todo : List LayerStep
  made : List Layer
  deriving DecidableEq

/-- A layer that is made takes its place. -/
def Creating.put (c : Creating) (place : Option Nat) (layer : Layer) : Creating :=
  match place with
  | none => { c with made := c.made ++ [layer] }
  | some i => { c with made := c.made.set i layer }

/-- Where a request stands. -/
inductive Request where
  /-- `CreateHandler` is called -/
  | create (r : CreateRequest)
  /-- in `parseFromModel` or `createModel` -/
  | layers (c : Creating)
  /-- in `NewLayer`, before the blob is renamed -/
  | rename (mediaType content : Bytes) (place : Option Nat) (c : Creating)
  /-- in `WriteManifest`, with the file open -/
  | encode (file : Nat) (old : Option Manifest) (made : List Layer)
  /-- `DeleteHandler` is called -/
  | delete (path : Bytes)
  /-- before `Manifest.Remove` -/
  | remove (path : Bytes) (m : Manifest)
  /-- in `RemoveLayers`, or in the `removeLayer` of a request that goes on with its layers then -/
  | removeLayers (todo : List Bytes) (back : Option Creating)
  /-- in `Layer.Remove`, with the manifests that are still to be read -/
  | removeLayer (digest : Bytes) (unread : List Bytes) (todo : List Bytes) (back : Option Creating)
  | returned
  deriving DecidableEq

/-- How a step goes. -/
inductive Outcome where
  | ok
  /-- `os.Stat` finds a manifest in `Manifests`, which is gone when it is to be opened -/
  | gone
  | fail
  deriving DecidableEq

/-- The manifest that `WriteManifest` writes: the last layer is the config. -/
def manifestOf (made : List Layer) : Manifest := ⟨(made.map Layer.digest).getLastD [], (made.map Layer.digest).dropLast⟩

/-- `parseFromModel` fails: the error is sent, and the request goes on without the layers of the model. -/
def Creating.fromFailed (c : Creating) : Request := .layers { c with fromModel := [], made := [] }

/-- `Layer.Remove` fails, not for a file that is not there: `RemoveLayers` returns the error, `removeLayer` only warns. -/
def removeFailed (todo : List Bytes) (back : Option Creating) : Request :=
  match back with
  | none => .returned
  | some _ => .removeLayers todo back

variable (sha : Bytes → Bytes)

/-- What a request does that fails at a step. -/
def Request.failed : Request → Request
  | .layers c => if c.fromModel ≠ [] then c.fromFailed else .returned
  | .removeLayers (_ :: todo) back | .removeLayer _ _ todo back => removeFailed todo back
  | _ => .returned

/-- The next step of a create request that is making its layers. -/
def Disk.layersNext (disk : Disk) (c : Creating) : Disk × Request :=
  match c.fromModel, c.todo with
  | l :: rest, _ =>
    -- `NewLayerFromLayer`, in `parseFromModel`
    if l.digest = [] then (disk, c.fromFailed)
    else
      match getBlobsPath l.digest with
      | none => (disk, c.fromFailed)
      | some fp => (disk, if disk.hasBlob fp then .layers { c with
          fromModel := rest, made := c.made ++ [l] } else c.fromFailed)
  | [], .make mediaType (.reader content) place :: todo =>
    let digest := ascii "sha256:" ++ sha content
    match getBlobsPath digest with
    | none => (disk, .returned)
    | some fp =>
      if disk.hasBlob fp then (disk, .layers ({ c with todo }.put place ⟨mediaType, digest⟩))
      else (disk, .rename mediaType content place { c with todo })
  | [], .make mediaType (.layer digest) place :: todo =>
    if digest = [] then (disk, .returned)
    else
      match getBlobsPath digest with
      | none => (disk, .returned)
      | some fp =>
          (disk, if disk.hasBlob fp then .layers ({ c with todo }.put place ⟨mediaType, digest⟩) else .returned)
  | [], .remove mediaType :: todo =>
    (disk, .removeLayers ((c.made.filter (fun l => l.mediaType = mediaType)).map Layer.digest)
      (some { c with todo, made := c.made.filter (fun l => l.mediaType ≠ mediaType) }))
  | [], [] => ((disk.create c.path).1, .encode (disk.create c.path).2 c.old c.made)

/-- The next step of a request. -/
def Disk.next (disk : Disk) (request : Request) (outcome : Outcome) : Option (Disk × Request) :=
  match outcome, request with
  | _, .returned => none
  | .fail, request => some (disk, request.failed)
  | .ok, .create r =>
    if isNamePath r.path then
      some (disk, .layers ⟨r.path, if r.noPrune then none else disk.parseNamedManifest r.path, r.fromModel,
        createModel r, []⟩)
    else some (disk, .returned)
  | .ok, .layers c => some (disk.layersNext sha c)
  | .ok, .rename mediaType content place c =>
    let digest := ascii "sha256:" ++ sha content
    match getBlobsPath digest with
    | none => some (disk, .returned)
    | some fp => some ({ disk with blobs := Assoc.set disk.blobs fp content },
        .layers (c.put place ⟨mediaType, digest⟩))
  | .ok, .encode file old made =>
    some ({ disk with files := disk.files.set file (some (manifestOf made)) },
      match old with
      | none => .returned
      | some m => .removeLayers m.digests none)
  | .ok, .delete path =>
    match disk.parseNamedManifest path with
    | none => some (disk, .returned)
    | some m => some (disk, .remove path m)
  | .ok, .remove path m =>
    match disk.names.lookup path with
    | none => some (disk, .returned)
    | some _ => some ({ disk with names := disk.names.filter (fun e => e.1 ≠ path) }, .removeLayers m.digests none)
  | .ok, .removeLayers [] none => some (disk, .returned)
  | .ok, .removeLayers [] (some c) => some (disk, .layers c)
  | .ok, .removeLayers (digest :: todo) back =>
    if digest = [] then some (disk, .removeLayers todo back)
      else some (disk, .removeLayer digest (disk.names.map Prod.fst) todo back)
  | .ok, .removeLayer digest (path :: unread) todo back =>
    match disk.names.lookup path with
    -- `os.Stat` finds no file, which both callers pass over
    | none => some (disk, .removeLayers todo back)
    | some _ =>
      match disk.parseNamedManifest path with
      | none => some (disk, .removeLayer digest unread todo back)
      | some m => if digest ∈ m.digests then some (disk, .removeLayers todo back)
          else some (disk, .removeLayer digest unread todo back)
  | .gone, .removeLayer digest (path :: unread) todo back =>
    match disk.names.lookup path with
    | none => some (disk, .removeLayer digest unread todo back)
    | some _ => none
  | .ok, .removeLayer digest [] todo back =>
    match getBlobsPath digest with
    | none => some (disk, removeFailed todo back)
    | some fp => some ({ disk with blobs := disk.blobs.filter (fun e => e.1 ≠ fp) }, .removeLayers todo back)
  | .gone, _ => none

/-- A disk and the requests. -/
structure Models where
  disk : Disk
  requests : List Request

/-- What can happen next. -/
inductive ModelsAct where
  /-- `CreateHandler` is called -/
  | create (r : CreateRequest)
  /-- `DeleteHandler` is called -/
  | delete (path : Bytes)
  /-- a request steps -/
  | step (i : Nat) (outcome : Outcome)

/-- The state after an act. -/
def Models.act (s : Models) : ModelsAct → Option Models
  | .create r => some { s with requests := s.requests ++ [.create r] }
  | .delete path => some { s with requests := s.requests ++ [.delete path] }
  | .step i outcome => (s.requests[i]?).bind (fun request =>
      (s.disk.next sha request outcome).map (fun out => ⟨out.1, s.requests.set i out.2⟩))

/-- Every layer and config of every manifest has its blob. -/
def Disk.Complete (disk : Disk) : Prop :=
  ∀ path m, disk.parseNamedManifest path = some m → ∀ d ∈ m.digests, d ≠ [] → ∃ fp, getBlobsPath d = some fp ∧
    disk.hasBlob fp = true

/-- Any number of create and delete requests, from any complete disk. -/
def models : Machine Models ModelsAct where
  init s := s.disk.Complete ∧ s.requests = []
  act := Models.act sha

end Ollama.Server
