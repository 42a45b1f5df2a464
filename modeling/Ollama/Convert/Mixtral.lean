import Ollama.Convert.Safetensors
import Ollama.Lib.Assoc
import Ollama.Lib.Decimal

/-!
# Mixtral models

`Tensors` of `convert/convert_mixtral.go` and of the `llamaModel` it is built on in `convert/convert_llama.go`, with
their replacements. The experts of a layer and kind are merged into one tensor that writes them one after the other.
The order in which a map is ranged over does not matter to what is said of each merged tensor.
-/

namespace Ollama.Convert

open Lib

/-- What the tensors of a `llamaModel` depend on: the factors of `RopeScaling`, which are nil if there are none, and
`repack`. -/
structure LlamaModel where
  factors : List UInt32
  repack : Repacker

/-- `mixtralModel`. -/
structure MixtralModel extends LlamaModel where
  numLocalExperts : UInt32

/-- A `WriterTo`. -/
inductive Writer where
  /-- `ropeFactor` -/
  | factors (f32s : List UInt32)
  | tensor (st : Safetensor)
  /-- `experts` -/
  | experts (e : List Safetensor)

/-- A `ggml.Tensor` as it is made for a converted model. -/
structure Output where
  name : Bytes
  kind : UInt32
  shape : List UInt64
  writerTo : Writer

/-- `WriteTo`: what is written. -/
def Writer.writeTo (floats : Floats) (maxAlloc : Nat) (fsys : FS) : Writer → Except Failure Bytes
  | .factors f32s => .ok (f32s.flatMap (fun bits => le 4 bits.toNat))
  | .tensor st => st.writeTo floats maxAlloc fsys
  | .experts e => (e.mapM (Safetensor.writeTo floats maxAlloc fsys)).map List.flatten

/-- `Replacements` of a `llamaModel`. -/
def LlamaModel.replacements : Replacer :=
  [(ascii "lm_head", ascii "output"),
   (ascii "model.embed_tokens", ascii "token_embd"),
   (ascii "model.norm", ascii "output_norm"),
   (ascii "model.layers", ascii "blk"),
   (ascii "input_layernorm", ascii "attn_norm"),
   (ascii "self_attn.q_proj", ascii "attn_q"),
   (ascii "self_attn.k_proj", ascii "attn_k"),
   (ascii "self_attn.v_proj", ascii "attn_v"),
   (ascii "self_attn.o_proj", ascii "attn_output"),
   (ascii "mlp.gate_proj", ascii "ffn_gate"),
   (ascii "mlp.down_proj", ascii "ffn_down"),
   (ascii "mlp.up_proj", ascii "ffn_up"),
   (ascii "post_attention_layernorm", ascii "ffn_norm")]

/-- `Tensors` of a `llamaModel`. -/
def LlamaModel.tensors (p : LlamaModel) (ts : List Safetensor) : List Output :=
  (if p.factors = [] then []
    else [{ name := ascii "rope_freqs.weight", kind := 0, shape := [UInt64.ofNat
      p.factors.length], writerTo := .factors p.factors }]) ++
  ts.map (fun st =>
    let st := if ascii "attn_q.weight" <:+ st.name ∨ ascii "attn_k.weight" <:+ st.name
      then { st with repacker := some p.repack } else st
    { name := st.name, kind := st.kind, shape := st.shape, writerTo := .tensor st })

/-- `Replacements`. -/
def MixtralModel.replacements : Replacer :=
  LlamaModel.replacements ++ [(ascii "block_sparse_moe.gate", ascii "ffn_gate_inp")]

/-- What the name of an expert's tensor contains. -/
def expertMark : Bytes := ascii ".block_sparse_moe.experts."

/-- The replacer of the parts of a name that the experts of a layer and kind differ in. -/
def MixtralModel.namer (p : MixtralModel) : Replacer :=
  [(ascii "model.layers", ascii "blk"),
   (ascii "w1", ascii "ffn_gate_exps"),
   (ascii "w2", ascii "ffn_down_exps"),
   (ascii "w3", ascii "ffn_up_exps")] ++
  (List.range p.numLocalExperts.toNat).map (fun i => (expertMark ++ (decimal i ++ [0x2E]), [0x2E]))

/-- The experts by the names of the tensors they are merged into. -/
def MixtralModel.experts (p : MixtralModel) (ts : List Safetensor) : List (Bytes × List Safetensor) :=
  Assoc.group (fun st => p.namer.replace st.name) (ts.filter (fun st => expertMark <:+: st.name))

/-- The tensor that experts are merged into. There are always some. -/
def merge (n : Bytes) : List Safetensor → Option Output
  | [] => none
  | st :: e =>
      some { name := n, kind := st.kind, shape := UInt64.ofNat (st ::
      e).length :: st.shape, writerTo := .experts (st :: e) }

/-- `Tensors`. -/
def MixtralModel.tensors (p : MixtralModel) (ts : List Safetensor) : List Output :=
  (p.experts ts).filterMap (fun ne => merge ne.1 ne.2) ++
    p.toLlamaModel.tensors (ts.filter (fun st => ¬expertMark <:+: st.name))

end Ollama.Convert
