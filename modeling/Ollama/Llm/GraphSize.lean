import Ollama.Ggml.KeyValue
import Ollama.Llm.Memory

/-!
# The sizes of graphs

`GraphSize`, `VisionGraphSize` and `SupportsFlashAttention` of `fs/ggml/ggml.go`, all in 64-bit arithmetic that wraps
around. There is no outcome where they panic: a key that is not of the type that is asked for, a dimension that a
tensor does not have, a division by 0. The formulas themselves are total; what they divide by is looked at before.

The bytes of an element of the cache are a floating-point number, so what a number of elements comes to is a function
that is given.
-/

namespace Ollama.Llm

open Lib Ollama.Ggml

/-- The tensor of a layer. -/
def tensorOf (layers : List (Bytes × Layer)) (layer tensor : Bytes) : Option Tensor :=
  (layers.lookup layer).bind (fun l => l.lookup tensor)

/-- `Layer.Size`, which wraps around. -/
def Layer.wrappedSize (l : Layer) : UInt64 := (l.map (fun e => e.2.size)).sum

/-- The size of a layer, 0 if there is none. -/
def layerSizeOf (layers : List (Bytes × Layer)) (layer : Bytes) : UInt64 :=
  match layers.lookup layer with
  | none => 0
  | some l => l.wrappedSize

/-! ## GraphSize -/

/-- What the formulas of `GraphSize` are made of. -/
structure GraphParams where
  context : UInt64
  batch : UInt64
  embedding : UInt64
  heads : UInt64
  headsKV : UInt64
  vocab : UInt64
  embeddingHeads : UInt64
  embeddingHeadsK : UInt64
  embeddingHeadsV : UInt64
  blockCount : UInt64

/-- They are read of the keys. There have to be tokens. -/
def graphParams (kv : List (Bytes × Value)) (context batch : UInt64) : Option GraphParams := do
  let embedding ← embeddingLength kv
  let heads ← headCount kv
  let headsKV ← headCountKV kv
  let vocab ← (← kv.lookup (ascii "tokenizer.ggml.tokens")).arraySize?
  let embeddingHeads ← embeddingHeadCount kv
  let embeddingHeadsK ← embeddingHeadCountK kv
  let embeddingHeadsV ← embeddingHeadCountV kv
  let blockCount ← blockCount kv
  some {
    context, batch, embedding, heads, headsKV, vocab := UInt64.ofNat vocab,
    embeddingHeads, embeddingHeadsK, embeddingHeadsV, blockCount }

/-- The cases of `GraphSize`, with what they read of the model. -/
inductive Graph where
  | llama
  /-- mixtral 8x22b, of the size of its gates -/
  | mixtral8x22b (ffnGateExpsWeight ff : UInt64)
  | mixtral8x7b (ffnGateWeight1 : UInt64)
  | mllama (ropeFreqsCount : UInt64)
  | gemma
  | commandR
  | qwen2
  | phi2
  | stablelm
  | deepseek2
  | chatglm (qkvBias : Option UInt64)
  | other

/-- The case of an architecture. -/
def graphOf (f : Gguf) (architecture : Bytes) : Option Graph :=
  let layers := groupLayers f.tensors
  if architecture = ascii "llama" then
    match tensorOf layers (ascii "blk.0") (ascii "ffn_gate_exps.weight"),
      tensorOf layers (ascii "blk.0") (ascii "ffn_gate.0.weight") with
    | some ffnGateExpsWeight, _ => do
      let ff ← (← f.kv.lookup (ascii "llama.feed_forward_length")).uint32?
      some (.mixtral8x22b ffnGateExpsWeight.size ff.toUInt64)
    | none, some ffnGateWeight => ffnGateWeight.shape[1]?.map .mixtral8x7b
    | none, none => some .llama
  else if architecture = ascii "mllama" then
    some (.mllama (match tensorOf layers (ascii "rope_freqs") (ascii "weights") with
      | some ropeFreqsWeights => ropeFreqsWeights.parameters
      | none => 0))
  else if architecture = ascii "gemma" ∨ architecture = ascii "gemma2" then some .gemma
  else if architecture = ascii "command-r" then some .commandR
  else if architecture = ascii "qwen2" then some .qwen2
  else if architecture = ascii "phi2" then some .phi2
  else if architecture = ascii "stablelm" then some .stablelm
  else if architecture = ascii "deepseek2" then some .deepseek2
  else if architecture = ascii "chatglm" then
    match tensorOf layers (ascii "blk.0") (ascii "attn_qkv.bias") with
    | some qkvBias => qkvBias.shape[0]?.map (fun n => .chatglm (some n))
    | none => some (.chatglm none)
  else some .other

/-- The formula of the case divides by the number of heads. -/
def Graph.dividesByHeads : Graph → Bool
  | .mixtral8x7b _ => true
  | _ => false

/-- The graphs of a partial and of a full offload. -/
def Graph.offload (p : GraphParams) : Graph → UInt64 × UInt64
  | .llama =>
    (4 * p.batch * p.embedding +
      max (4 * p.batch * (1 + p.embedding + max p.context p.embedding) + p.embedding * p.embedding * 9 / 16 +
          4 * p.context * (p.batch * p.heads + p.embeddingHeads * p.headsKV))
        (4 * p.batch * (p.embedding + p.vocab) + p.embedding * p.vocab * 105 / 128),
      max (4 * p.batch * (1 + 4 * p.embedding + p.context * (1 + p.heads))) (4 * p.batch * (p.embedding + p.vocab)))
  | .mixtral8x22b ffnGateExpsWeight ff =>
    (max (3 * ffnGateExpsWeight + 4 * p.batch * (2 * ff + p.headsKV + p.embedding + p.context +
      p.embeddingHeads * p.headsKV))
        (4 * (p.context * p.batch * p.heads + p.context * p.embeddingHeads * p.headsKV + p.batch * 1024 +
          p.embeddingHeads * p.headsKV * p.batch)),
      max (4 * p.batch * (1 + 4 * p.embedding + p.context * (1 + p.heads))) (4 * p.batch * (p.embedding + p.vocab)))
  | .mixtral8x7b ffnGateWeight1 =>
    (max (4 * p.batch * (3 + p.embeddingHeads * p.headsKV + p.embedding + p.context * (1 + p.heads) + ffnGateWeight1) +
          (p.embedding * p.embedding + 3 * p.embedding * p.headsKV * ffnGateWeight1) * 9 / 16)
        (4 * p.batch * (1 + 2 * p.embedding + p.context * (1 + p.heads)) +
          p.embedding * (6 * p.context * p.headsKV / p.heads + p.embedding * 9 / 16)),
      4 * p.batch * (2 + 3 * p.embedding + p.context * (1 + p.heads) + 2 * p.headsKV + ffnGateWeight1))
  | .mllama ropeFreqsCount =>
    (max (4 * (p.batch * (2 * p.embedding + 1 + p.context * (1 + p.heads) + p.embeddingHeadsK * p.heads) +
      ropeFreqsCount + p.embeddingHeadsK * p.context * p.headsKV))
        (4 * p.batch * (p.embedding + p.vocab) + p.embedding * p.vocab * 105 / 128),
      max (4 * p.batch * (2 + 3 * p.embedding + p.embeddingHeadsK * p.heads + p.context * (1 + p.heads)))
        (4 * p.batch * (p.embedding + p.vocab)))
  | .gemma =>
    (max (4 * p.embedding * p.batch + p.embedding * p.vocab * 105 / 128 + 4 * p.vocab * p.batch)
        (4 * p.batch * (2 * p.embedding + 1 + 2 * p.embeddingHeadsK * p.heads + p.context + p.context * p.heads) +
          4 * p.embeddingHeadsK * p.context * 8 + p.embedding * p.embeddingHeadsK * p.heads * 9 / 16),
      max (4 * p.batch * (p.embedding + p.vocab))
        (4 * p.batch * (2 + p.context + p.context * p.heads + 2 * p.embedding + 2 * p.embeddingHeadsK * p.heads)))
  | .commandR =>
    (max (4 * p.batch * (p.embedding + p.vocab) + p.embedding * p.vocab * 105 / 128)
        (4 * p.batch * (1 + 2 * p.embedding + p.context * (1 + p.heads)) + 4 * p.embedding * p.context +
          p.embedding * p.embedding * 9 / 16),
      max (4 * p.batch * (p.embedding + p.vocab)) (4 * p.batch * (2 + 4 * p.embedding + p.context * (1 + p.heads))))
  | .qwen2 =>
    (max (4 * p.batch * (p.embedding + p.vocab) + p.embedding * p.vocab * 105 / 128)
        (4 * (p.batch * (1 + 2 * p.embedding + p.context * (1 + p.heads)) + p.embedding * (1 + p.context))),
      max (4 * p.batch * (p.embedding + p.vocab))
        (4 * p.batch * (1 + 2 * p.embedding + p.context + p.context * p.heads)))
  | .phi2 =>
    (max (4 * p.batch * (2 * p.embedding + p.vocab) + p.embedding * p.vocab * 105 / 128)
        (4 * p.batch * (2 + 3 * p.embedding + p.context + p.context * p.heads)),
      max (4 * p.batch * (p.embedding + p.vocab))
        (4 * p.batch * (1 + 4 * p.embedding + p.context + p.context * p.heads)))
  | .stablelm =>
    let fullOffload := 4 * p.batch * (p.context * (1 + p.heads) + 3 * p.embedding + 2)
    (max (4 * p.batch * (p.vocab + 2 * p.embedding)) fullOffload, fullOffload)
  | .deepseek2 =>
    (max (4 * p.batch * (3 * p.embedding + p.vocab) + p.embedding * p.vocab * 105 / 128)
        (4 * p.batch * (2 * p.embedding + 1 + 2 * p.embeddingHeadsK * p.headsKV + p.context + p.context * p.headsKV) +
          4 * p.embeddingHeadsK * p.context * p.headsKV + p.embedding * p.embeddingHeadsK * p.headsKV * 9 / 16),
      max (4 * p.batch * (3 * p.embedding + p.vocab))
        (4 * p.batch * (3 * p.embedding + 2 + p.context * (1 + p.headsKV) + 2 * p.embeddingHeadsK * p.headsKV)))
  | .chatglm qkvBias =>
    let fullOffload := 4 * p.batch * (p.embedding + p.vocab)
    let partialOffload := 4 * p.batch * (p.embedding + p.vocab) + p.embedding * p.vocab * 105 / 128
    match qkvBias with
    | none => (partialOffload, fullOffload)
    | some n =>
      (max partialOffload
          (4 * p.batch * (1 + 2 * p.embedding + p.embeddingHeadsK * p.heads + p.context + p.context * p.heads) +
            4 * p.embeddingHeadsK * p.context + 4 * p.context * p.embeddingHeadsK + 4 * n),
        max fullOffload (4 * p.batch * (2 + 2 * p.embedding + p.context + p.context * p.heads +
          p.embeddingHeadsK * p.heads + n)))
  | .other => (0, 0)

/-- The cache. Some of the layers of an mllama model attend to images. -/
def kvSize (kvCacheBytes : UInt64 → UInt64) (kv : List (Bytes × Value)) (architecture : Bytes) (p : GraphParams) :
    UInt64 :=
  let size := kvCacheBytes (p.context * p.blockCount * (p.embeddingHeadsK + p.embeddingHeadsV) * p.headsKV)
  if architecture = ascii "mllama" then
    match (kv.lookup (ascii "mllama.attention.cross_attention_layers")).bind Value.arraySize? with
    | none => size
    | some n =>
      p.headsKV * (p.embeddingHeadsK + p.embeddingHeadsV) *
        (2 * (p.blockCount - UInt64.ofNat n) * p.context + 4 * UInt64.ofNat n * 1601 * 4)
  else size

/-- `GraphSize`: the cache, and the graphs of a partial and of a full offload. `kvCacheBytes` is the product of a
number and of `kvCacheBytesPerElement` of the type of the cache. -/
def graphSize (kvCacheBytes : UInt64 → UInt64) (f : Gguf) (context batch : UInt64) :
    Option (UInt64 × UInt64 × UInt64) := do
  let p ← graphParams f.kv context batch
  let architecture ← architecture f.kv
  let graph ← graphOf f architecture
  if graph.dividesByHeads ∧ p.heads = 0 then none
  else some (kvSize kvCacheBytes f.kv architecture p, graph.offload p)

/-! ## VisionGraphSize -/

/-- A number of the vision part of an mllama model, 0 if it is of another type. -/
def visionNumber (kv : List (Bytes × Value)) (n : Bytes) : UInt64 :=
  match (kv.lookup (ascii "mllama.vision." ++ n)).bind Value.uint32? with
  | none => 0
  | some v => v.toUInt64

/-- The graph of the vision part. -/
def visionGraph (f : Gguf) : UInt64 :=
  let kv := visionNumber f.kv
  let imageSize := kv (ascii "image_size")
  let maxNumTiles := kv (ascii "max_num_tiles")
  let embeddingLength := kv (ascii "embedding_length")
  let headCount := kv (ascii "attention.head_count")
  let numPatches := imageSize / kv (ascii "patch_size") * (imageSize / kv (ascii "patch_size"))
  let numPatches := if (tensorOf (groupLayers f.tensors) (ascii "v") (ascii "class_embd")).isSome
    then numPatches + 1 else numPatches
  let numPaddedPatches := numPatches + 8 - numPatches % 8 % 8
  4 * (8 + imageSize * imageSize * kv (ascii "num_channels") * maxNumTiles +
    embeddingLength * numPatches * maxNumTiles +
    9 * embeddingLength * numPaddedPatches * maxNumTiles +
      numPaddedPatches * maxNumTiles * numPaddedPatches * maxNumTiles * headCount)

/-- The graph of the vision part of an architecture, which divides by the size of a patch. -/
def visionGraphOf (f : Gguf) (architecture : Bytes) : Option UInt64 :=
  if architecture = ascii "mllama" then
    if visionNumber f.kv (ascii "patch_size") = 0 then none else some (visionGraph f)
  else some 0

/-- `VisionGraphSize`: the weights and the graph. -/
def visionGraphSize (f : Gguf) : Option (UInt64 × UInt64) := do
  let architecture ← architecture f.kv
  let graphSize ← visionGraphOf f architecture
  some (if architecture = ascii "mllama" then layerSizeOf (groupLayers f.tensors) (ascii "v") else 0, graphSize)

/-! ## The type of the cache -/

/-- `SupportsKVCacheType`. -/
def supportsKVCacheType (cacheType : Bytes) : Bool := [ascii "f16", ascii "q8_0", ascii "q4_0"].contains cacheType

/-- `SupportsFlashAttention`. -/
def supportsFlashAttention (kv : List (Bytes × Value)) : Option Bool := do
  let architecture ← architecture kv
  if (kv.lookup (architecture ++ ascii ".pooling_type")).isSome then some false
  else
    let headCountK ← embeddingHeadCountK kv
    let headCountV ← embeddingHeadCountV kv
    some (headCountK ≠ 0 ∧ headCountV ≠ 0 ∧ headCountK = headCountV)

end Ollama.Llm
