import Ollama.Blob.Theorems.Link
import Ollama.Blob.Theorems.Names
import Ollama.Blob.Theorems.Puts
import Ollama.Bufioutil.BufferedSeeker
import Ollama.Client.Theorems.Chunked
import Ollama.Client.Theorems.Chunks
import Ollama.Client.Theorems.Pull
import Ollama.Ggml.Theorems.Addressing
import Ollama.Ggml.Theorems.RoundTrip
import Ollama.Ggml.Theorems.Totality
import Ollama.Kvcache.Theorems.Defrag
import Ollama.Kvcache.Theorems.Fullness
import Ollama.Kvcache.Theorems.Mask
import Ollama.Kvcache.Theorems.Refinement
import Ollama.Kvcache.Theorems.Usage
import Ollama.Kvcache.Theorems.Wrapper
import Ollama.Llm.Theorems.Memory
import Ollama.Model.Theorems.Tokenizer
import Ollama.Parser.Theorems.Modelfile
import Ollama.Runner.Theorems.Batch
import Ollama.Runner.Theorems.Capacity
import Ollama.Runner.Theorems.Handlers
import Ollama.Runner.Theorems.Shift
import Ollama.Runner.Theorems.Slots
import Ollama.Runner.Theorems.Stop
import Ollama.Sched.Theorems.Deadlock
import Ollama.Sched.Theorems.KeepAlive
import Ollama.Sched.Theorems.Loaded
import Ollama.Sched.Theorems.Requests
import Ollama.Server.Theorems.Challenge
import Ollama.Server.Theorems.Download
import Ollama.Server.Theorems.Layers
import Ollama.Server.Theorems.ModelPath
import Ollama.Server.Theorems.Prune
import Ollama.Server.Theorems.Pull
import Ollama.Server.Theorems.Resume
import Ollama.Server.Theorems.ToolCalls
import Ollama.Server.Theorems.Upload
import Ollama.Syncs.Theorems.Relay
import Ollama.Types.Theorems.Name
import Ollama.Ggml.Theorems.Order
import Ollama.Lib.Search
import Ollama.Llamarunner.InputCache
import Ollama.Runner.Lemmas.BestSlot
import Ollama.Kvcache.Encoder
import Ollama.Kvcache.Theorems.Encoder
import Ollama.Ggml.Theorems.Collection
import Ollama.Convert.Theorems.Tokenizer
import Ollama.Model.Theorems.Fragments
import Ollama.Model.Theorems.Maximal
import Ollama.Convert.Safetensors
import Ollama.Lib.Decimal
import Ollama.Convert.Lemmas.Safetensors
import Ollama.Convert.Theorems.Safetensors
import Ollama.Convert.Mixtral
import Ollama.Convert.Lemmas.Experts
import Ollama.Convert.Theorems.Experts
import Ollama.Lib.PairMerging
import Ollama.Model.Lemmas.Segments
import Ollama.Model.Lemmas.Queue
import Ollama.Model.Theorems.Canonical
import Ollama.Runner.Lemmas.Numbered
import Ollama.Runner.Theorems.Accounting
import Ollama.Parser.Theorems.Verbatim
import Ollama.Server.Theorems.Prompt
import Ollama.Client.Theorems.Push
import Ollama.Llm.Theorems.Totals
import Ollama.Llm.Theorems.Estimate
import Ollama.Server.Theorems.UploadParts
import Ollama.Server.Theorems.GgufLayers
import Ollama.Server.Theorems.ToolCallOrder
import Ollama.Mllama.Theorems.PostTokenize
import Ollama.Llm.Theorems.Completion
import Ollama.Runner.Theorems.Limit
import Ollama.Readline.Theorems.Buffer
import Ollama.Model.Theorems.Populate
import Ollama.Template.Theorems.Safety
import Ollama.Template.Theorems.Lossless
import Ollama.Llama.Theorems.Language
import Ollama.Llama.Theorems.LeftRecursion
import Ollama.Llama.Theorems.Parser
