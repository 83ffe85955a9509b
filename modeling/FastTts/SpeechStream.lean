import Mathlib.Algebra.Order.Ring.Int
import FastTts.Json
import FastTts.LocalWindows

/-!
# The streaming speech decoder

Codec frames are decoded a chunk at a time, each chunk behind the last frames of what came before
it, and the samples of these are dropped again. If a frame's samples depend on no more frames than
the context holds, what is returned is the decode of the whole sequence without the reference.
-/

namespace FastTts.SpeechStream

open LocalWindows

structure SpeechCodes where
  codes : List Int32
  frames : ℤ
  codeGroups : ℤ
  deriving DecidableEq

structure AudioBuffer (Sample : Type) where
  sampleRate : ℤ
  channels : ℤ
  samples : List Sample

structure Options where
  chunkFrames : ℤ
  contextFrames : ℤ

def defaultOptions : Options := ⟨2, 25⟩

def samplesPerCodecFrame : ℤ := 1920

def maxInt64 : ℤ := 2 ^ 63 - 1

def validateCodes (codes : SpeechCodes) (codeGroups : ℤ) (label : Bytes) : Except Exception Unit :=
  if codes.frames < 0 ∨ codes.codeGroups ≠ codeGroups then
    .error (bytes "Qwen3 streaming decoder invalid " ++ label ++ bytes " shape")
  else if maxInt64 / codeGroups < codes.frames ∨
      (codes.codes.length : ℤ) ≠ codes.frames * codeGroups then
    .error (bytes "Qwen3 streaming decoder invalid " ++ label ++ bytes " payload")
  else .ok ()

def tailFrames (source : SpeechCodes) (frames : ℤ) : SpeechCodes :=
  let kept := min source.frames frames
  let firstFrame := source.frames - kept
  ⟨source.codes.drop (firstFrame * source.codeGroups).toNat, kept, source.codeGroups⟩

structure StreamDecoder (Sample : Type) where
  decode : SpeechCodes → Except Exception (AudioBuffer Sample)
  codeGroups : ℤ
  options : Options
  context : SpeechCodes
  pending : SpeechCodes
  emittedFrames : ℤ

variable {Sample : Type}

def StreamDecoder.window (d : StreamDecoder Sample) : SpeechCodes :=
  ⟨d.context.codes ++ d.pending.codes, d.context.frames + d.pending.frames, d.codeGroups⟩

/-- The guard on the samples leaves nothing that resizing would have to fill. -/
def StreamDecoder.decodePending (d : StreamDecoder Sample) :
    StreamDecoder Sample × Except Exception (Option (AudioBuffer Sample)) :=
  if d.pending.frames = 0 then (d, .ok none)
  else match d.decode d.window with
    | .error what => (d, .error what)
    | .ok audio =>
      let contextSamples := d.context.frames * samplesPerCodecFrame
      let emittedSamples := d.pending.frames * samplesPerCodecFrame
      if contextSamples < 0 ∨ emittedSamples < 0 ∨
          audio.samples.length < contextSamples + emittedSamples then
        (d, .error (bytes "Qwen3 streaming decoder sample trim exceeds decoded window"))
      else
        ({ d with
            emittedFrames := d.emittedFrames + d.pending.frames
            context := tailFrames d.window d.options.contextFrames
            pending := { d.pending with frames := 0, codes := [] } },
          .ok (some { audio with
            samples := (audio.samples.drop contextSamples.toNat).take emittedSamples.toNat }))

def StreamDecoder.received (d : StreamDecoder Sample) (codes : List Int32) : StreamDecoder Sample :=
  { d with pending :=
    { d.pending with codes := d.pending.codes ++ codes, frames := d.pending.frames + 1 } }

def StreamDecoder.pushFrame (d : StreamDecoder Sample) (codes : List Int32) :
    StreamDecoder Sample × Except Exception (Option (AudioBuffer Sample)) :=
  if (codes.length : ℤ) ≠ d.codeGroups then
    (d, .error (bytes "Qwen3 streaming decoder codec frame width mismatch"))
  else if (d.received codes).pending.frames < d.options.chunkFrames then (d.received codes, .ok none)
  else (d.received codes).decodePending

def StreamDecoder.flush (d : StreamDecoder Sample) :
    StreamDecoder Sample × Except Exception (Option (AudioBuffer Sample)) :=
  d.decodePending

def StreamDecoder.setReferenceContext (d : StreamDecoder Sample) :
    Option SpeechCodes → Except Exception (StreamDecoder Sample)
  | none => .ok d
  | some reference => do
    validateCodes reference d.codeGroups (bytes "reference codec")
    return { d with context := tailFrames reference d.options.contextFrames }

def StreamDecoder.cleared (d : StreamDecoder Sample) : StreamDecoder Sample :=
  { d with context := ⟨[], 0, d.codeGroups⟩, pending := ⟨[], 0, d.codeGroups⟩, emittedFrames := 0 }

/-- A reference that is refused leaves the decoder without a context. -/
def StreamDecoder.reset (d : StreamDecoder Sample) (reference : Option SpeechCodes) :
    StreamDecoder Sample × Except Exception Unit :=
  match d.cleared.setReferenceContext reference with
  | .error what => (d.cleared, .error what)
  | .ok d => (d, .ok ())

def create (decode : Option (SpeechCodes → Except Exception (AudioBuffer Sample)))
    (codeGroups : ℤ) (options : Options) (reference : Option SpeechCodes) :
    Except Exception (StreamDecoder Sample) :=
  match decode with
  | none => .error (bytes "Qwen3 streaming decoder requires a decode function")
  | some decode =>
    if codeGroups ≤ 0 then .error (bytes "Qwen3 streaming decoder requires positive code_groups")
    else if options.chunkFrames ≤ 0 then .error (bytes "Qwen3 TTS chunk_frames must be positive")
    else if options.contextFrames < 0 then
      .error (bytes "Qwen3 TTS decoder_context_frames must be non-negative")
    else
      let created : StreamDecoder Sample :=
        ⟨decode, codeGroups, options, ⟨[], 0, 0⟩, ⟨[], 0, 0⟩, 0⟩
      match created.reset reference with
      | (_, .error what) => .error what
      | (d, .ok ()) => .ok d

/-! ## Runs -/

inductive Request
  | pushFrame (codes : List Int32)
  | flush

def StreamDecoder.step (d : StreamDecoder Sample) :
    Request → StreamDecoder Sample × Except Exception (Option (AudioBuffer Sample))
  | .pushFrame codes => d.pushFrame codes
  | .flush => d.flush

def returned : Except Exception (Option (AudioBuffer Sample)) → List Sample
  | .ok (some audio) => audio.samples
  | .ok none | .error _ => []

/-- The decoder after the requests, and the samples of all the audio that they returned. -/
def StreamDecoder.run (d : StreamDecoder Sample) : List Request → StreamDecoder Sample × List Sample
  | [] => (d, [])
  | request :: requests =>
    let (d, result) := d.step request
    let (d, samples) := d.run requests
    (d, returned result ++ samples)

theorem run_append (d : StreamDecoder Sample) (requests more : List Request) :
    d.run (requests ++ more) =
      (((d.run requests).1.run more).1, (d.run requests).2 ++ ((d.run requests).1.run more).2) := by
  induction requests generalizing d with
  | nil => rfl
  | cons request requests ih =>
    rw [List.cons_append, StreamDecoder.run, StreamDecoder.run]
    simp only [ih, List.append_assoc]

/-! ## Exceptions -/

theorem decodePending_error {d : StreamDecoder Sample} {what : Exception}
    (h : d.decodePending.2 = .error what) : d.decodePending.1 = d := by
  rw [StreamDecoder.decodePending] at h ⊢
  split_ifs at h ⊢ with hpending
  cases hdecode : d.decode d.window with
  | error what' => rfl
  | ok audio =>
    simp only [hdecode] at h ⊢
    split_ifs at h ⊢ with htrim
    rfl

theorem pushFrame_error {d : StreamDecoder Sample} {codes : List Int32} {what : Exception}
    (h : (d.pushFrame codes).2 = .error what) :
    (d.pushFrame codes).1 = if (codes.length : ℤ) = d.codeGroups then d.received codes else d := by
  rw [StreamDecoder.pushFrame] at h ⊢
  by_cases hwidth : (codes.length : ℤ) = d.codeGroups
  · simp only [hwidth, ne_eq, not_true_eq_false, if_false, if_true] at h ⊢
    split_ifs at h ⊢ with hchunk
    exact decodePending_error h
  · simp only [hwidth, ne_eq, not_false_eq_true, if_true, if_false]

/-! ## Frames -/

/-- A codec frame has one code for each group. -/
abbrev Frame (groups : ℕ) : Type := { codes : List Int32 // codes.length = groups }

variable {groups : ℕ} (frames : List (Frame groups))

def codesOf : SpeechCodes :=
  ⟨frames.flatMap Subtype.val, frames.length, groups⟩

theorem drop_codesOf (n : ℕ) :
    (codesOf frames).codes.drop (n * groups) = (codesOf (frames.drop n)).codes := by
  induction frames generalizing n with
  | nil => simp [codesOf]
  | cons frame frames ih =>
    cases n with
    | zero => simp
    | succ n =>
      have hframe : frame.val.length = groups := frame.property
      have hsum : (n + 1) * groups = frame.val.length + n * groups := by
        rw [hframe, Nat.add_mul, Nat.one_mul, Nat.add_comm]
      rw [List.drop_succ_cons, ← ih, hsum, ← List.drop_drop]
      change ((frame.val ++ (codesOf frames).codes).drop frame.val.length).drop (n * groups) = _
      rw [List.drop_left]

theorem codesOf_append (frames more : List (Frame groups)) :
    codesOf (frames ++ more) = ⟨(codesOf frames).codes ++ (codesOf more).codes,
      (codesOf frames).frames + (codesOf more).frames, groups⟩ := by
  simp [codesOf]

theorem tailFrames_codesOf (n : ℕ) : tailFrames (codesOf frames) n = codesOf (frames.rtake n) := by
  have hkept : min (frames.length : ℤ) n = ((frames.rtake n).length : ℤ) := by
    rw [List.rtake, List.length_drop]
    omega
  have hfirst : (((frames.length : ℤ) - (frames.rtake n).length) * groups).toNat =
      (frames.length - n) * groups := by
    have hsub : (frames.length : ℤ) - (frames.rtake n).length = ((frames.length - n : ℕ) : ℤ) := by
      rw [List.rtake, List.length_drop]
      omega
    rw [hsub, ← Nat.cast_mul, Int.toNat_natCast]
  have hcodes := drop_codesOf frames (frames.length - n)
  simp only [tailFrames]
  rw [show (codesOf frames).frames = (frames.length : ℤ) from rfl, hkept,
    show (codesOf frames).codeGroups = (groups : ℤ) from rfl, hfirst, hcodes]
  rfl

theorem exists_codesOf {codes : SpeechCodes} {label : Bytes}
    (h : validateCodes codes groups label = .ok ()) :
    ∃ frames : List (Frame groups), codes = codesOf frames := by
  rw [validateCodes] at h
  split_ifs at h with hshape hpayload
  rw [not_or, not_lt, not_not] at hshape hpayload
  obtain ⟨text, count, width⟩ := codes
  obtain ⟨n, rfl⟩ := Int.eq_ofNat_of_zero_le hshape.1
  obtain rfl : width = groups := hshape.2
  have hwhole : (text.length : ℤ) = (n : ℤ) * groups := hpayload.2
  have hlen : text.length = n * groups := by exact_mod_cast hwhole
  clear h hshape hpayload hwhole
  induction n generalizing text with
  | zero =>
    rw [Nat.zero_mul, List.length_eq_zero_iff] at hlen
    exact ⟨[], by rw [hlen]; rfl⟩
  | succ n ih =>
    rw [Nat.add_mul, Nat.one_mul] at hlen
    have hrest : (text.drop groups).length = n * groups := by
      rw [List.length_drop]
      omega
    have hfirst : (text.take groups).length = groups := by
      rw [List.length_take]
      omega
    obtain ⟨frames, hframes⟩ := ih (text.drop groups) hrest
    injection hframes with htext hcount
    have hsplit := List.take_append_drop groups text
    rw [htext] at hsplit
    have hn : n = frames.length := by exact_mod_cast hcount
    refine ⟨⟨text.take groups, hfirst⟩ :: frames, ?_⟩
    rw [codesOf, SpeechCodes.mk.injEq]
    refine ⟨hsplit.symm, ?_, rfl⟩
    rw [List.length_cons, ← hn]

/-! ## Local decoding -/

def samplesOf (decode : SpeechCodes → Except Exception (AudioBuffer Sample))
    (frames : List (Frame groups)) : List Sample :=
  match decode (codesOf frames) with
  | .ok audio => audio.samples
  | .error _ => []

/-- Each frame gives its number of samples, and they depend on the frame and on no more than
`context` frames before it. -/
structure DecodesLocally (decode : SpeechCodes → Except Exception (AudioBuffer Sample))
    (groups context : ℕ) : Prop where
  yields : ∀ frames : List (Frame groups), frames ≠ [] →
    ∃ audio, decode (codesOf frames) = .ok audio
  windows : Local (samplesOf decode : List (Frame groups) → List Sample)
    samplesPerCodecFrame.toNat context

/-- The decoder has emitted the samples of some frames and holds some more. -/
structure Follows (decode : SpeechCodes → Except Exception (AudioBuffer Sample)) (options : Options)
    (reference emitted pending : List (Frame groups)) (d : StreamDecoder Sample) : Prop where
  context : d.context = codesOf ((reference ++ emitted).rtake options.contextFrames.toNat)
  pending : d.pending = codesOf pending
  emitted : d.emittedFrames = emitted.length
  decode : d.decode = decode
  codeGroups : d.codeGroups = groups
  options : d.options = options

section Follows

variable {decode : SpeechCodes → Except Exception (AudioBuffer Sample)} {options : Options}
  {reference emitted pending : List (Frame groups)} {d : StreamDecoder Sample}

theorem frames_mul_samples (frames : List (Frame groups)) :
    (codesOf frames).frames * samplesPerCodecFrame =
      ((frames.length * samplesPerCodecFrame.toNat : ℕ) : ℤ) := by
  rw [Nat.cast_mul]
  rfl

theorem window_eq (h : Follows decode options reference emitted pending d) :
    d.window = codesOf ((reference ++ emitted).rtake options.contextFrames.toNat ++ pending) := by
  rw [StreamDecoder.window, h.context, h.pending, h.codeGroups, codesOf_append]

theorem decodePending_follows (hcontext : 0 ≤ options.contextFrames)
    (hdecode : DecodesLocally decode groups options.contextFrames.toNat)
    (h : Follows decode options reference emitted pending d) :
    Follows decode options reference (emitted ++ pending) [] d.decodePending.1 ∧
      samplesOf decode (reference ++ (emitted ++ pending)) =
        samplesOf decode (reference ++ emitted) ++ returned d.decodePending.2 := by
  by_cases hnone : pending = []
  · have hzero : d.pending.frames = 0 := by
      rw [h.pending, hnone]
      rfl
    rw [StreamDecoder.decodePending, if_pos hzero]
    subst hnone
    rw [List.append_nil]
    exact ⟨h, (List.append_nil _).symm⟩
  · have hsome : ¬ d.pending.frames = 0 := by
      rw [h.pending]
      have hpos := List.length_pos_iff.mpr hnone
      change ¬ (pending.length : ℤ) = 0
      omega
    let history := reference ++ emitted
    let context := history.rtake options.contextFrames.toNat
    obtain ⟨audio, haudio⟩ := hdecode.yields (context ++ pending) (by simp [hnone])
    have hsamples : samplesOf decode (context ++ pending) = audio.samples := by
      rw [samplesOf, haudio]
    have hlen := hdecode.windows.length (context ++ pending)
    rw [hsamples, List.length_append, Nat.add_mul] at hlen
    have hcontextSamples : d.context.frames * samplesPerCodecFrame =
        ((context.length * samplesPerCodecFrame.toNat : ℕ) : ℤ) := by
      rw [h.context, frames_mul_samples]
    have hemittedSamples : d.pending.frames * samplesPerCodecFrame =
        ((pending.length * samplesPerCodecFrame.toNat : ℕ) : ℤ) := by
      rw [h.pending, frames_mul_samples]
    have htrimmed : (audio.samples.drop (context.length * samplesPerCodecFrame.toNat)).take
        (pending.length * samplesPerCodecFrame.toNat) =
          (samplesOf decode (history ++ pending)).drop
            (history.length * samplesPerCodecFrame.toNat) := by
      have hwindow := hdecode.windows.drop_window history pending
      rw [← hwindow, hsamples, List.take_of_length_le]
      rw [List.length_drop]
      omega
    have hfits : ¬ (d.context.frames * samplesPerCodecFrame < 0 ∨
        d.pending.frames * samplesPerCodecFrame < 0 ∨ (audio.samples.length : ℤ) <
          d.context.frames * samplesPerCodecFrame + d.pending.frames * samplesPerCodecFrame) := by
      rw [hcontextSamples, hemittedSamples]
      omega
    have hwindow : d.decode d.window = .ok audio := by
      rw [h.decode, window_eq h]
      exact haudio
    rw [StreamDecoder.decodePending, if_neg hsome, hwindow]
    simp only [if_neg hfits]
    simp only [hcontextSamples, hemittedSamples, Int.toNat_natCast, htrimmed, returned]
    constructor
    · constructor
      · change tailFrames d.window d.options.contextFrames = _
        rw [window_eq h, h.options, ← Int.toNat_of_nonneg hcontext, tailFrames_codesOf,
          Int.toNat_natCast, rtake_append, List.append_assoc]
      · change SpeechCodes.mk [] 0 d.pending.codeGroups = _
        rw [h.pending]
        rfl
      · change d.emittedFrames + d.pending.frames = _
        rw [h.emitted, h.pending, List.length_append]
        push_cast
        rfl
      · exact h.decode
      · exact h.codeGroups
      · exact h.options
    · have hprefix := hdecode.windows.take_append history pending
      rw [← List.append_assoc, ← hprefix, List.take_append_drop]

theorem received_follows (h : Follows decode options reference emitted pending d)
    (frame : Frame groups) :
    Follows decode options reference emitted (pending ++ [frame]) (d.received frame.val) := by
  constructor
  · exact h.context
  · change SpeechCodes.mk (d.pending.codes ++ frame.val) (d.pending.frames + 1)
      d.pending.codeGroups = _
    rw [h.pending, codesOf_append]
    simp [codesOf]
  · exact h.emitted
  · exact h.decode
  · exact h.codeGroups
  · exact h.options

def frameOf (groups : ℕ) : Request → Option (Frame groups)
  | .pushFrame codes => if h : codes.length = groups then some ⟨codes, h⟩ else none
  | .flush => none

/-- The frames that the requests push; codes of a wrong width are none. -/
def pushed (groups : ℕ) (requests : List Request) : List (Frame groups) :=
  requests.filterMap (frameOf groups)

theorem step_follows (hcontext : 0 ≤ options.contextFrames)
    (hdecode : DecodesLocally decode groups options.contextFrames.toNat)
    (h : Follows decode options reference emitted pending d) (request : Request) :
    ∃ emitted' pending', Follows decode options reference emitted' pending' (d.step request).1 ∧
      emitted' ++ pending' = emitted ++ pending ++ pushed groups [request] ∧
      samplesOf decode (reference ++ emitted') =
        samplesOf decode (reference ++ emitted) ++ returned (d.step request).2 := by
  cases request with
  | flush =>
    obtain ⟨hfollows, hsamples⟩ := decodePending_follows hcontext hdecode h
    refine ⟨emitted ++ pending, [], hfollows, ?_, hsamples⟩
    rw [List.append_nil]
    exact (List.append_nil _).symm
  | pushFrame codes =>
    rw [StreamDecoder.step, StreamDecoder.pushFrame, h.codeGroups]
    by_cases hwidth : codes.length = groups
    · have hok : ¬ (codes.length : ℤ) ≠ groups := by
        rw [hwidth]
        exact fun hne => hne rfl
      have hpushed : pushed groups [.pushFrame codes] = [⟨codes, hwidth⟩] := by
        simp [pushed, frameOf, hwidth]
      have hreceived := received_follows h ⟨codes, hwidth⟩
      rw [if_neg hok, hpushed]
      by_cases hchunk : (d.received codes).pending.frames < d.options.chunkFrames
      · rw [if_pos hchunk]
        refine ⟨emitted, pending ++ [⟨codes, hwidth⟩], hreceived, ?_, (List.append_nil _).symm⟩
        rw [List.append_assoc]
      · rw [if_neg hchunk]
        obtain ⟨hfollows, hsamples⟩ := decodePending_follows hcontext hdecode hreceived
        refine ⟨_, [], hfollows, ?_, hsamples⟩
        rw [List.append_nil, List.append_assoc]
    · have hbad : (codes.length : ℤ) ≠ groups := by exact_mod_cast hwidth
      have hpushed : pushed groups [.pushFrame codes] = [] := by
        simp [pushed, frameOf, hwidth]
      rw [if_pos hbad, hpushed, List.append_nil]
      exact ⟨emitted, pending, h, rfl, (List.append_nil _).symm⟩

theorem run_follows (hcontext : 0 ≤ options.contextFrames)
    (hdecode : DecodesLocally decode groups options.contextFrames.toNat)
    (h : Follows decode options reference emitted pending d) (requests : List Request) :
    ∃ emitted' pending', Follows decode options reference emitted' pending' (d.run requests).1 ∧
      emitted' ++ pending' = emitted ++ pending ++ pushed groups requests ∧
      samplesOf decode (reference ++ emitted') =
        samplesOf decode (reference ++ emitted) ++ (d.run requests).2 := by
  induction requests generalizing emitted pending d with
  | nil => exact ⟨emitted, pending, h, (List.append_nil _).symm, (List.append_nil _).symm⟩
  | cons request requests ih =>
    obtain ⟨emitted₁, pending₁, hstep, hframes₁, hsamples₁⟩ :=
      step_follows hcontext hdecode h request
    obtain ⟨emitted₂, pending₂, hrun, hframes₂, hsamples₂⟩ := ih hstep
    refine ⟨emitted₂, pending₂, hrun, ?_, ?_⟩
    · have hcons : pushed groups (request :: requests) =
          pushed groups [request] ++ pushed groups requests := by
        rw [pushed, pushed, pushed, ← List.filterMap_append]
        rfl
      rw [hframes₂, hframes₁, hcons, ← List.append_assoc]
    · rw [hsamples₂, hsamples₁, List.append_assoc]
      rfl

theorem run_flush_follows (hcontext : 0 ≤ options.contextFrames)
    (hdecode : DecodesLocally decode groups options.contextFrames.toNat)
    (h : Follows decode options reference [] [] d) (requests : List Request) :
    Follows decode options reference (pushed groups requests) [] (d.run (requests ++ [.flush])).1 ∧
      samplesOf decode (reference ++ pushed groups requests) =
        samplesOf decode reference ++ (d.run (requests ++ [.flush])).2 := by
  obtain ⟨emitted, pending, hrun, hframes, hsamples⟩ := run_follows hcontext hdecode h requests
  obtain ⟨hflush, hrest⟩ := decodePending_follows hcontext hdecode hrun
  rw [List.append_nil, List.nil_append] at hframes
  rw [List.append_nil] at hsamples
  rw [hframes] at hflush hrest
  have hend : (d.run requests).1.run [.flush] =
      ((d.run requests).1.decodePending.1, returned (d.run requests).1.decodePending.2) := by
    simp only [StreamDecoder.run, StreamDecoder.step, StreamDecoder.flush, List.append_nil]
  rw [run_append, hend]
  refine ⟨hflush, ?_⟩
  rw [hrest, hsamples, List.append_assoc]

end Follows

/-! ## Construction -/

section

variable {decode : SpeechCodes → Except Exception (AudioBuffer Sample)} {options : Options}
  {reference : Option SpeechCodes}

theorem reset_follows {d : StreamDecoder Sample} (hcontext : 0 ≤ options.contextFrames)
    (hreference : ∀ codes ∈ reference,
      validateCodes codes groups (bytes "reference codec") = .ok ()) (hdecode : d.decode = decode)
    (hwidth : d.codeGroups = groups) (hoptions : d.options = options) :
    ∃ (d' : StreamDecoder Sample) (frames : List (Frame groups)),
      d.reset reference = (d', .ok ()) ∧ Follows decode options frames [] [] d' ∧
      reference.getD ⟨[], 0, groups⟩ = codesOf frames := by
  have hempty : SpeechCodes.mk [] 0 d.codeGroups = codesOf ([] : List (Frame groups)) := by
    rw [hwidth]
    rfl
  cases reference with
  | none =>
    refine ⟨d.cleared, [], rfl, ?_, rfl⟩
    constructor
    · change SpeechCodes.mk [] 0 d.codeGroups = _
      rw [hempty, List.append_nil, List.rtake_nil]
    · exact hempty
    · rfl
    · exact hdecode
    · exact hwidth
    · exact hoptions
  | some reference =>
    have hvalid := hreference reference rfl
    obtain ⟨frames, rfl⟩ := exists_codesOf hvalid
    have hset : d.cleared.setReferenceContext (some (codesOf frames)) =
        .ok { d.cleared with context := tailFrames (codesOf frames) d.options.contextFrames } := by
      change (validateCodes (codesOf frames) d.codeGroups (bytes "reference codec") >>= _) = _
      rw [hwidth, hvalid]
      rfl
    refine ⟨{ d.cleared with context := tailFrames (codesOf frames) d.options.contextFrames },
      frames, ?_, ?_, rfl⟩
    · rw [StreamDecoder.reset, hset]
    · constructor
      · change tailFrames (codesOf frames) d.options.contextFrames = _
        rw [hoptions, ← Int.toNat_of_nonneg hcontext, tailFrames_codesOf, Int.toNat_natCast,
          List.append_nil]
      · exact hempty
      · rfl
      · exact hdecode
      · exact hwidth
      · exact hoptions

theorem create_follows (hgroups : 0 < groups)
    (hchunk : 0 < options.chunkFrames) (hcontext : 0 ≤ options.contextFrames)
    (hreference : ∀ codes ∈ reference,
      validateCodes codes groups (bytes "reference codec") = .ok ()) :
    ∃ (d : StreamDecoder Sample) (frames : List (Frame groups)),
      create (some decode) groups options reference = .ok d ∧
      Follows decode options frames [] [] d ∧ reference.getD ⟨[], 0, groups⟩ = codesOf frames := by
  let created : StreamDecoder Sample :=
    ⟨decode, groups, options, ⟨[], 0, 0⟩, ⟨[], 0, 0⟩, 0⟩
  obtain ⟨d, frames, hreset, hfollows, hhistory⟩ :=
    reset_follows (d := created) hcontext hreference rfl rfl rfl
  refine ⟨d, frames, ?_, hfollows, hhistory⟩
  have hwidth : ¬ (groups : ℤ) ≤ 0 := by omega
  rw [create]
  simp only [if_neg hwidth, if_neg (not_le.mpr hchunk), if_neg (not_lt.mpr hcontext)]
  change (match created.reset reference with
    | (_, Except.error what) => Except.error what
    | (d, Except.ok ()) => Except.ok d) = _
  rw [hreset]

end

/-- What the requests return is the decode of all frames behind the reference, without the
reference; an exception leaves the decoder as the decode found it. -/
theorem stream_decodes_as_one {groups : ℕ} (hgroups : 0 < groups)
    (decode : SpeechCodes → Except Exception (AudioBuffer Sample)) (options : Options)
    (hchunk : 0 < options.chunkFrames) (hcontext : 0 ≤ options.contextFrames)
    (reference : Option SpeechCodes)
    (hreference : ∀ codes ∈ reference,
      validateCodes codes groups (bytes "reference codec") = .ok ())
    (hdecode : DecodesLocally decode groups options.contextFrames.toNat)
    (requests : List Request) :
    (∃ d, create (some decode) groups options reference = .ok d ∧
      let ended := d.run (requests ++ [.flush])
      let frames := pushed groups requests
      let history := reference.getD ⟨[], 0, groups⟩
      (ended.2.length : ℤ) = frames.length * samplesPerCodecFrame ∧
      ended.1.emittedFrames = frames.length ∧ ended.1.pending.frames = 0 ∧
      (history.frames + frames.length = 0 ∨ ∃ audio,
        decode ⟨history.codes ++ (codesOf frames).codes, history.frames + frames.length, groups⟩ =
          .ok audio ∧
        ended.2 = audio.samples.drop (history.frames * samplesPerCodecFrame).toNat)) ∧
    ∀ (d : StreamDecoder Sample) (what : Exception),
      (d.decodePending.2 = .error what → d.decodePending.1 = d) ∧
      ∀ codes, (d.pushFrame codes).2 = .error what →
        (d.pushFrame codes).1 = if (codes.length : ℤ) = d.codeGroups then d.received codes else d := by
  refine ⟨?_, fun d what => ⟨decodePending_error, fun codes => pushFrame_error⟩⟩
  obtain ⟨d, frames, hcreate, hfollows, hhistory⟩ :=
    create_follows hgroups hchunk hcontext hreference
  obtain ⟨hended, hsamples⟩ := run_flush_follows hcontext hdecode hfollows requests
  have hlen := congrArg List.length hsamples
  rw [List.length_append, hdecode.windows.length, hdecode.windows.length, List.length_append,
    Nat.add_mul, Nat.add_left_cancel_iff] at hlen
  refine ⟨d, hcreate, ?_, hended.emitted, ?_, ?_⟩
  · rw [← hlen, Nat.cast_mul]
    rfl
  · rw [hended.pending]
    rfl
  · rw [hhistory]
    by_cases hnone : frames ++ pushed groups requests = []
    · left
      rw [List.append_eq_nil_iff] at hnone
      rw [hnone.1, hnone.2]
      rfl
    · obtain ⟨audio, haudio⟩ := hdecode.yields _ hnone
      right
      refine ⟨audio, ?_, ?_⟩
      · rw [codesOf_append] at haudio
        exact haudio
      · have hall : samplesOf decode (frames ++ pushed groups requests) = audio.samples := by
          rw [samplesOf, haudio]
        rw [frames_mul_samples, Int.toNat_natCast, ← hdecode.windows.length, ← hall, hsamples,
          List.drop_left]

/-- Every code sounds for the length of a frame. -/
def markers (codes : SpeechCodes) : Except Exception (AudioBuffer Int32) :=
  .ok ⟨24000, 1, codes.codes.flatMap (List.replicate samplesPerCodecFrame.toNat)⟩

theorem markers_decodesLocally (context : ℕ) : DecodesLocally markers 1 context := by
  refine ⟨fun frames _ => ⟨_, rfl⟩, ?_⟩
  have hsamples : (samplesOf markers : List (Frame 1) → List Int32) =
      List.flatMap fun frame => frame.val.flatMap (List.replicate samplesPerCodecFrame.toNat) := by
    funext frames
    exact List.flatMap_assoc
  rw [hsamples]
  apply local_flatMap
  intro frame
  obtain ⟨code, hcode⟩ := List.length_eq_one_iff.mp frame.property
  rw [hcode, List.flatMap_singleton, List.length_replicate]

/-- Three frames after a reference, in chunks of two, with codes of a wrong width in between. -/
theorem stream_decodes_as_one_markers :
    ∃ d, create (some markers) 1 ⟨2, 1⟩ (some ⟨[10, 11, 12], 3, 1⟩) = .ok d ∧
      let ended := d.run [.pushFrame [1], .pushFrame [2, 2], .pushFrame [3], .pushFrame [4], .flush]
      (ended.2.length : ℤ) = 3 * samplesPerCodecFrame ∧ ended.1.emittedFrames = 3 ∧
        ∃ audio, markers ⟨[10, 11, 12, 1, 3, 4], 6, 1⟩ = .ok audio ∧
          ended.2 = audio.samples.drop (3 * samplesPerCodecFrame).toNat := by
  obtain ⟨⟨d, hcreate, hlen, hemitted, _, hzero | hall⟩, _⟩ := stream_decodes_as_one (by decide)
    markers ⟨2, 1⟩ (by decide) (by decide) (some ⟨[10, 11, 12], 3, 1⟩)
    (by rintro codes ⟨⟩; rfl) (markers_decodesLocally _)
    [.pushFrame [1], .pushFrame [2, 2], .pushFrame [3], .pushFrame [4]]
  · exact absurd hzero (by decide)
  · exact ⟨d, hcreate, hlen, hemitted, hall⟩

end FastTts.SpeechStream
