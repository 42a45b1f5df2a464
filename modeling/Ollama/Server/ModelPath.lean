import Ollama.Types.Name

/-!
# Model paths

`server/modelpath.go`: the parser of model names that the manifest store was written with. It splits a text at every
slash, and the last of at most three components at its first colon.
-/

namespace Ollama.Server

open Lib

/-- `ModelPath`. -/
structure ModelPath where
  protocolScheme : Bytes
  registry : Bytes
  namespace_ : Bytes
  repository : Bytes
  tag : Bytes
  deriving DecidableEq

/-- `ParseModelPath`. The separator of paths is a slash, so that there is none to replace. -/
def parseModelPath (name : Bytes) : ModelPath :=
  let mp : ModelPath := ⟨ascii "https", ascii "registry.ollama.ai", ascii "library", [], ascii "latest"⟩
  let (mp, name) :=
    match index (ascii "://") name with
    | none => (mp, name)
    | some i => ({ mp with protocolScheme := name.take i }, name.drop (i + 3))
  let mp :=
    match components name with
    | [registry, namespace_, repository] => { mp with registry, namespace_, repository }
    | [namespace_, repository] => { mp with namespace_, repository }
    | [repository] => { mp with repository }
    | _ => mp
  match index [0x3a] mp.repository with
  | none => mp
  | some i => { mp with repository := mp.repository.take i, tag := mp.repository.drop (i + 1) }

/-- `ModelPath.GetManifestPath`, in a directory of models. -/
def ModelPath.getManifestPath (models : Bytes) (mp : ModelPath) : Option Bytes :=
  let name : Types.Name := ⟨mp.registry, mp.namespace_, mp.repository, mp.tag⟩
  if ¬name.isValid then none else name.filepath.map (fun path => joinPath [models, ascii "manifests", path])

end Ollama.Server
