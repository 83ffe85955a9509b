import FastTts.ChatRequests
import FastTts.LiveOutcome
import FastTts.LlmSwitch
import FastTts.LlmWarm
import FastTts.LlmStream
import FastTts.VoiceBuffers
import FastTts.VoiceEvents
import FastTts.VoiceProvenance
import FastTts.WarmPrompt
import FastTts.BoundedKvDecode
import FastTts.QwenBatchedRuns
import FastTts.GraphSoundness
import FastTts.BusyGuard
import FastTts.VoiceTurns
import FastTts.TalkerRuns
import FastTts.TalkerRows
import FastTts.VoiceStableEvents
import FastTts.VoicePunctuation
import FastTts.ChatSanitizer
import FastTts.SpeechMarkup
import FastTts.VoiceTakes
import FastTts.Multipart
import FastTts.MasterPrompt
import FastTts.CharacterSlug
import FastTts.CharacterText
import FastTts.AudioStreams
import FastTts.HttpRequests
import FastTts.SileroSegments
import FastTts.QuietChunks
import FastTts.OverlapAdd
import FastTts.TextBreaks
import FastTts.LruSlots
import FastTts.TdtDecoder
import FastTts.KvRoundTrip
import FastTts.FlowKvCache
import FastTts.SamplerScratch
import FastTts.TorchMt19937
import FastTts.AlignableWords
import FastTts.WavReader
import FastTts.SafetensorsRoundTrip
import FastTts.TorchTensorCalls
import FastTts.SamplerFilters
import FastTts.AlignedSpans
import FastTts.JsoncValue
import FastTts.MidiRoundTrip
import FastTts.AsrDeliveries
import FastTts.StreamLifecycle
import FastTts.PlayedSeconds
import FastTts.Karaoke
import FastTts.SseEvents
import FastTts.NumberStage
import FastTts.PinyinTones
import FastTts.EnglishNumbers
import FastTts.IndexedTensors
import FastTts.Resampling
import FastTts.ForeachSteps
import FastTts.GraphCapacities
import FastTts.ActivityGate
