import NcclCore.GinProxy

/-! A descriptor carries the values of the call through its bit-fields: whatever was in
the memory it is built in, the request that the host takes from it is the one that was
asked for. -/
namespace NcclCore
section
variable (config : GinProxyConfig)
variable (queue : config.QueueId)

/-- Where the backend finds the source of a put in a slot: a value is in the slot of the
inline values. -/
def GinProxySource.requestOff (slot : Nat) :
    GinProxySource → BitVec 64
  | window srcOff .. => srcOff.setWidth 64
  | value .. => BitVec.ofNat 64 (8 * (queue.2.val * config.queueSize + slot))

def GinProxySource.requestHandle : GinProxySource → BitVec 64
  | window _ srcHandle _ => srcHandle.setWidth 64
  | value .. => config.inlinesMhandle queue.1

/-- The request that a call asks for, in a slot of a queue. -/
def GinProxyCall.request (slot : Nat) (aggregate : Bool) :
    GinProxyCall → GinProxyRequest
  | put source dstOff dstHandle none _ _ =>
    .iput queue.1 (source.requestOff config queue slot) (source.requestHandle config queue) source.size
      (dstOff.setWidth 64) (dstHandle.setWidth 64) queue.2 aggregate
  | put source dstOff dstHandle (some signal) _ isStrong =>
    .iputSignal queue.1 (source.requestOff config queue slot) (source.requestHandle config queue) source.size
      (dstOff.setWidth 64) (dstHandle.setWidth 64) queue.2
      (BitVec.ofNat 64 ((signal.signalId.toNat + queue.1.val * config.nSignalsPerContext) * 8)) config.signalsGinHandle
      signal.signalVal (some signal.signalOp) isStrong aggregate
  | vaSignal signalWindow signalOff signalOp signalVal isStrong =>
    .iputSignal queue.1 0 0 0 0 0 queue.2 (signalOff.setWidth 64) (signalWindow.setWidth 64) signalVal (some signalOp)
      isStrong aggregate
  | get srcOff srcHandle dstOff dstHandle bytes =>
    .iget queue.1 (srcOff.setWidth 64) (srcHandle.setWidth 64) (bytes.setWidth 64) (dstOff.setWidth 64)
      (dstHandle.setWidth 64) queue.2 aggregate
  | flush => .iflush queue.1 config.signalsGinHandle queue.2

end

/-- The value that a call sends inline. -/
def GinProxyCall.inlined : GinProxyCall → Option (BitVec 64)
  | put (.value bits ..) .. => some bits
  | _ => none

namespace GinProxyGfdProofs
open Lib GinProxyGfd Function Option BitVec

/-! ### Fields -/

/-- Fields that can be set one without the other. -/
def Separate (first second : GinProxyField) : Prop :=
  first.word ≠ second.word ∨ BitField.Apart first.toBitField second.toBitField

instance (first second : GinProxyField) : Decidable (Separate first second) := inferInstanceAs (Decidable (_ ∨ _))

theorem get_set_self (gfd : GinProxyGfd) (field : GinProxyField) (value : BitVec 64)
    (fits : field.start + field.width ≤ 64) :
    (gfd.set field value).get field = (value.setWidth field.width).setWidth 64 := by
  rw [GinProxyGfd.get, GinProxyGfd.set, update_self]
  exact BitField.get_set_self _ _ _ fits

theorem get_set_of_separate (gfd : GinProxyGfd) (value : BitVec 64) (apart : Separate field other) :
    (gfd.set other value).get field = gfd.get field := by
  rw [GinProxyGfd.get, GinProxyGfd.set]
  by_cases same : field.word = other.word
  · rw [same, update_self, BitField.get_set_of_apart (apart.resolve_left (not_not_intro same)), GinProxyGfd.get, same]
  · rw [update_of_ne same]
    rfl

theorem get_set_of_words {words : List (Fin 16)} (elsewhere : field.word ∉ words) (gfd : GinProxyGfd)
    (value : BitVec 64) (there : other.word ∈ words) : (gfd.set other value).get field = gfd.get field :=
  get_set_of_separate gfd value (.inl fun same => elsewhere (same ▸ there))

theorem flag_set (gfd : GinProxyGfd) (k : Fin 16) (value : BitVec 64)
    (behind : 1 ≤ field.start) : flag.get (gfd.set field value k) = flag.get (gfd k) := by
  by_cases same : k = field.word
  · have apart : flag.Apart field.toBitField := .inl behind
    rw [same, GinProxyGfd.set, update_self, BitField.get_set_of_apart apart]
  · rw [GinProxyGfd.set, update_of_ne same]

theorem setWidth_roundtrip (value : BitVec width) (wide : width ≤ middle) :
    ((value.setWidth middle).setWidth width).setWidth middle = value.setWidth middle := by
  rw [setWidth_setWidth_of_le _ wide, setWidth_eq]

/-- The low bits of a value and those behind them are its low bits. -/
theorem join_setWidth (value : BitVec 64) (low more : Nat) :
    (value.setWidth low).setWidth 64 ||| ((value >>> low).setWidth more).setWidth 64 <<< low =
      (value.setWidth (low + more)).setWidth 64 := by
  refine eq_of_getLsbD_eq fun i bound => ?_
  rcases lt_or_ge i low with first | behind
  · have inside : i < low + more := by omega
    simp [first, inside]
  · have past : ¬ i < low := by omega
    have there : low + (i - low) = i := by omega
    have same : i - low < more ↔ i < low + more := by omega
    simp [past, there, same, bound]

/-! ### What is built -/

section
variable (memory : GinProxyGfd) (args : BuildGfdArgs)

/-- Every word of a descriptor has its flag. -/
theorem flag_buildGfd (k : Fin 16) : flag.get (buildGfd memory args k) = 1 := by
  have header : flag.get (buildHeader args memory k) = 1 := by
    simp (disch := decide) only [buildHeader, flag_set]
    exact BitField.get_set_self flag 1 (memory k) (by decide)
  have source : flag.get (buildSource args (buildHeader args memory) k) = 1 := by
    simp only [buildSource]
    repeat' split
    all_goals simp (disch := decide) only [flag_set, header]
  rw [buildGfd]
  split
  · exact header
  · simp (disch := decide) only [buildTarget, flag_set, source]

theorem get_buildSource (elsewhere : field.word ∉ [1, 2]) (gfd : GinProxyGfd) :
    (buildSource args gfd).get field = gfd.get field := by
  simp only [buildSource]
  repeat' split
  all_goals simp (disch := decide) only [get_set_of_words elsewhere]

theorem get_buildTarget (elsewhere : field.word ∉ [3, 4, 5, 6]) (gfd : GinProxyGfd) :
    (buildTarget args gfd).get field = gfd.get field := by
  simp (disch := decide) only [buildTarget, get_set_of_words elsewhere]

/-- The header is there in the end. -/
theorem get_header (header : field.word = 0 ∨ field.word = 7) :
    (buildGfd memory args).get field = (buildHeader args memory).get field := by
  rw [buildGfd]
  split
  · rfl
  · have apart : field.word ∉ [3, 4, 5, 6] ∧ field.word ∉ [1, 2] := by
      rcases header with here | here <;> rw [here] <;> decide
    rw [get_buildTarget args apart.1, get_buildSource args apart.2]

theorem get_version : (buildGfd memory args).get version = 2 := by
  rw [get_header memory args (.inl rfl)]
  simp (disch := decide) only [buildHeader, get_set_of_separate, get_set_self]
  decide

theorem get_size : (buildGfd memory args).get size = (args.size.setWidth 57).setWidth 64 := by
  rw [get_header memory args (.inl rfl)]
  simp (disch := decide) only [buildHeader, get_set_of_separate, get_set_self]
  rfl

theorem extractOp_buildGfd : (buildGfd memory args).extractOp = args.op := by
  rw [extractOp, get_header memory args (.inr rfl)]
  simp (disch := decide) only [buildHeader, get_set_self]
  simp [op]

/-! The rest is there unless the operation is a flush. -/

variable {args} (noFlush : args.op.has .flush = false)
include noFlush

theorem buildGfd_of_not_flush :
    buildGfd memory args = buildTarget args (buildSource args (buildHeader args memory)) := by
  rw [buildGfd, noFlush]
  rfl

/-- The fields behind the source. -/
theorem get_target : (buildGfd memory args).get dstOff = (args.dstOff.setWidth 63).setWidth 64 ∧
    (buildGfd memory args).get dstHandle = (args.dstHandle.setWidth 63).setWidth 64 ∧
    (buildGfd memory args).get counterId = ((args.counterId.setWidth 64).setWidth 23).setWidth 64 ∧
    (buildGfd memory args).get signalId = ((args.signalId.setWidth 64).setWidth 24).setWidth 64 ∧
    (buildGfd memory args).get signalValLow = (args.signalVal.setWidth 16).setWidth 64 ∧
    (buildGfd memory args).get signalValLow2 = ((args.signalVal >>> 16).setWidth 16).setWidth 64 ∧
    (buildGfd memory args).get signalValHigh = ((args.signalVal >>> 32).setWidth 32).setWidth 64 ∧
    (buildGfd memory args).get isStrongSignal = if args.isStrongSignal then 1 else 0 := by
  rw [buildGfd_of_not_flush memory noFlush]
  simp (disch := decide) only [buildTarget, get_set_of_separate, get_set_self]
  refine ⟨rfl, rfl, rfl, rfl, rfl, rfl, rfl, ?_⟩
  cases args.isStrongSignal <;> decide

theorem get_dst {off handle : BitVec 63} (isOff : args.dstOff = off.setWidth 64)
    (isHandle : args.dstHandle = handle.setWidth 64) :
    (buildGfd memory args).get dstOff = off.setWidth 64 ∧ (buildGfd memory args).get dstHandle = handle.setWidth 64 := by
  obtain ⟨toOff, toHandle, -⟩ := get_target memory noFlush
  rw [toOff, toHandle, isOff, isHandle]
  exact ⟨setWidth_roundtrip off (by decide), setWidth_roundtrip handle (by decide)⟩

theorem extractIsStrongSignal_buildGfd (is : args.isStrongSignal = isStrong) :
    (buildGfd memory args).extractIsStrongSignal = isStrong := by
  obtain ⟨-, -, -, -, -, -, -, strong⟩ := get_target memory noFlush
  rw [extractIsStrongSignal, get_version, strong, is]
  cases isStrong <;> decide

theorem extractSignalVal_buildGfd (is : args.signalVal = value) :
    (buildGfd memory args).extractSignalVal = value := by
  obtain ⟨-, -, -, -, low, low2, high, -⟩ := get_target memory noFlush
  rw [extractSignalVal, low, low2, high, is, join_setWidth _ 16 16, join_setWidth _ 32 32]
  simp

theorem get_sourceWord (here : field.word = 1 ∨ field.word = 2) :
    (buildGfd memory args).get field = (buildSource args (buildHeader args memory)).get field := by
  rw [buildGfd_of_not_flush memory noFlush]
  exact get_buildTarget args (by rcases here with here | here <;> rw [here] <;> decide) _

section
variable (noInline : args.hasInline = false) {off handle : BitVec 63}
include noInline

/-- The source is a part of a window, -/
theorem get_src (noSignal : args.op.has .vaSignal = false) (isOff : args.srcOff = off.setWidth 64)
    (isHandle : args.srcHandle = handle.setWidth 64) :
    (buildGfd memory args).get srcOff = off.setWidth 64 ∧ (buildGfd memory args).get srcHandle = handle.setWidth 64 := by
  rw [get_sourceWord memory noFlush (.inl rfl), get_sourceWord memory noFlush (.inr rfl),
    buildSource, noInline, noSignal]
  simp (disch := decide) only [Bool.false_eq_true, if_false, get_set_of_separate, get_set_self, isOff, isHandle]
  exact ⟨setWidth_roundtrip off (by decide), setWidth_roundtrip handle (by decide)⟩

/-- or the address of a signal. -/
theorem get_vaSignal (signal : args.op.has .vaSignal = true) (isOff : args.signalOff = off.setWidth 64)
    (isHandle : args.signalWindow = handle.setWidth 64) :
    (buildGfd memory args).get vaSignalOff = off.setWidth 64 ∧
      (buildGfd memory args).get vaSignalHandle = handle.setWidth 64 := by
  rw [get_sourceWord memory noFlush (.inl rfl), get_sourceWord memory noFlush (.inr rfl), buildSource, noInline, signal]
  simp (disch := decide) only [Bool.false_eq_true, if_true, if_false, get_set_of_separate, get_set_self, isOff, isHandle]
  exact ⟨setWidth_roundtrip off (by decide), setWidth_roundtrip handle (by decide)⟩

end

/-- A value of `sizeofT` bytes is put together again. -/
theorem inlineVal_buildGfd (isInline : args.hasInline = true) (small : args.sizeofT ≤ 8)
    (sized : args.size = BitVec.ofNat 64 args.sizeofT) (fits : args.srcValBits.toNat < 2 ^ (8 * args.sizeofT)) :
    (buildGfd memory args).inlineVal = args.srcValBits := by
  have bytes : ((buildGfd memory args).get size).toNat = args.sizeofT := by
    rw [get_size, sized]
    simp only [toNat_setWidth, toNat_ofNat]
    omega
  have low : (buildGfd memory args).get inlineValLow = (args.srcValBits.setWidth 32).setWidth 64 := by
    rw [get_sourceWord memory noFlush (.inl rfl)]
    simp only [buildSource, isInline, if_true]
    split <;> split <;> simp (disch := decide) only [get_set_of_separate, get_set_self] <;> rfl
  have low2 : args.sizeofT > 4 →
      (buildGfd memory args).get inlineValLow2 = ((args.srcValBits >>> 32).setWidth 16).setWidth 64 := by
    intro large
    rw [get_sourceWord memory noFlush (.inl rfl)]
    simp only [buildSource, isInline, if_true, large]
    split <;> simp (disch := decide) only [get_set_of_separate, get_set_self] <;> rfl
  have high : args.sizeofT > 6 →
      (buildGfd memory args).get inlineValHigh = ((args.srcValBits >>> 48).setWidth 16).setWidth 64 := by
    intro large
    rw [get_sourceWord memory noFlush (.inr rfl)]
    simp only [buildSource, isInline, if_true, large]
    simp (disch := decide) only [get_set_self]
    rfl
  -- the bits behind the size are clear
  have whole : ∀ {width}, 8 * args.sizeofT ≤ width → (args.srcValBits.setWidth width).setWidth 64 = args.srcValBits := by
    intro width wide
    have bound : args.srcValBits.toNat < 2 ^ width := fits.trans_le (Nat.pow_le_pow_right (by decide) wide)
    refine eq_of_toNat_eq ?_
    rw [toNat_setWidth, toNat_setWidth, Nat.mod_eq_of_lt bound, Nat.mod_eq_of_lt args.srcValBits.isLt]
  rw [inlineVal, bytes, low]
  by_cases large : args.sizeofT > 6
  · rw [if_pos (by omega), if_pos large, low2 (by omega), high large, join_setWidth _ 32 16,
      join_setWidth _ 48 16, whole (by omega)]
  · by_cases medium : args.sizeofT > 4
    · rw [if_pos medium, if_neg large, low2 medium, join_setWidth _ 32 16, whole (by omega)]
      simp
    · rw [if_neg medium, if_neg large, whole (by omega)]
      simp

end

/-! ### Calls -/

/-- The operation of a put. -/
theorem op_put (source : GinProxySource) (dstOff dstHandle : BitVec 63) (signal : Option GinIndexedSignal)
    (counter : Option (BitVec 23)) (isStrong : Bool) :
    let op := (GinProxyCall.put source dstOff dstHandle signal counter isStrong).args.op
    op.has .flush = false ∧ op.has .vaSignal = false ∧ op.has .get = false ∧ op.has .withInline = source.hasInline ∧
      op.has .withCounter = counter.isSome ∧ op &&& .baseMask = .put ∧
      (if op &&& (.withSignalInc ||| .withSignalAdd) = .withSignalInc then some GinSignalOp.inc
        else if op &&& (.withSignalInc ||| .withSignalAdd) = .withSignalAdd then some .add else none) =
        signal.map (·.signalOp) := by
  intro op
  have is : op = constructProxyOp false false source.hasInline (if signal.isSome then .indexed else .none)
      ((signal.map (·.signalOp)).getD .inc) counter.isSome := rfl
  clear_value op
  generalize source.hasInline = hasInline, counter.isSome = hasCounter at *
  subst is
  rcases signal with _ | ⟨-, signalOp, -⟩
  · cases hasInline <;> cases hasCounter <;> decide
  · cases hasInline <;> cases hasCounter <;> cases signalOp <;>
      simp only [isSome_some, if_true, map_some, getD_some] <;> decide

variable (config : GinProxyConfig) (id : config.QueueId) (slot : Nat) (aggregate : Bool) (memory : GinProxyGfd)

section
variable (source : GinProxySource)

theorem get_size_source (sized : args.size = source.size) :
    (buildGfd memory args).get GinProxyGfd.size = source.size := by
  rw [get_size, sized]
  cases source with
  | window srcOff srcHandle bytes => exact setWidth_roundtrip bytes (by decide)
  | value =>
    refine eq_of_toNat_eq ?_
    simp only [GinProxySource.size, toNat_setWidth, toNat_ofNat]
    omega

/-- A descriptor of a put, by its parts. -/
theorem request_put (dstOff dstHandle : BitVec 63) (signal : Option GinIndexedSignal)
    (counter : Option (BitVec 23)) (isStrong : Bool) :
    (buildGfd memory (GinProxyCall.put source dstOff dstHandle signal counter isStrong).args).request config id slot
      aggregate = some ((GinProxyCall.put source dstOff dstHandle signal counter isStrong).request config id slot
      aggregate) := by
  obtain ⟨noFlush, noSignal, noGet, inlined, -, base, mapped⟩ := op_put source dstOff dstHandle signal counter isStrong
  generalize isArgs : GinProxyCall.args _ = args at *
  have signalOp : (buildGfd memory args).mapGfdOpToSignalOp = signal.map (·.signalOp) := by
    rw [mapGfdOpToSignalOp, extractOp_buildGfd]
    exact mapped
  obtain ⟨toOff, toHandle⟩ := get_dst memory noFlush (show args.dstOff = dstOff.setWidth 64 from isArgs ▸ rfl)
    (show args.dstHandle = dstHandle.setWidth 64 from isArgs ▸ rfl)
  have sized := get_size_source memory source (show args.size = source.size from isArgs ▸ rfl)
  obtain ⟨fromOff, fromHandle⟩ : (if source.hasInline then BitVec.ofNat 64 (8 * (id.2.val * config.queueSize + slot))
        else (buildGfd memory args).get srcOff) = source.requestOff config id slot ∧
      (if source.hasInline then config.inlinesMhandle id.1 else (buildGfd memory args).get srcHandle) =
        source.requestHandle config id := by
    cases source with
    | window => exact get_src memory noFlush (isArgs ▸ rfl) noSignal (isArgs ▸ rfl) (isArgs ▸ rfl)
    | value => exact ⟨rfl, rfl⟩
  simp only [GinProxyGfd.request, extractOp_buildGfd, noFlush, noSignal, noGet, base, inlined, signalOp, toOff, toHandle,
    sized, fromOff, fromHandle, Bool.false_eq_true, if_false, if_true]
  cases signal with
  | none => rfl
  | some signal =>
    have strong : (buildGfd memory args).extractIsStrongSignal = isStrong :=
      extractIsStrongSignal_buildGfd memory noFlush (isArgs ▸ rfl)
    have value : (buildGfd memory args).extractSignalVal = signal.signalVal :=
      extractSignalVal_buildGfd memory noFlush (isArgs ▸ rfl)
    have index : ((buildGfd memory args).get GinProxyGfd.signalId).toNat = signal.signalId.toNat := by
      rw [(get_target memory noFlush).2.2.2.1, ← isArgs]
      simp only [GinProxyCall.args, map_some, getD_some, toNat_setWidth]
      omega
    simp [strong, value, index, GinProxyCall.request]

end

variable (call : GinProxyCall)

/-- The host asks the backend for what the call asked for. -/
theorem request_buildGfd :
    (buildGfd memory call.args).request config id slot aggregate = some (call.request config id slot aggregate) := by
  cases call with
  | put source dstOff dstHandle signal counter isStrong =>
    exact request_put config id slot aggregate memory source dstOff dstHandle signal counter isStrong
  | vaSignal signalWindow signalOff signalOp signalVal isStrong =>
    generalize isArgs : GinProxyCall.args _ = args
    have isOp : args.op = constructProxyOp false false false .va signalOp false := isArgs ▸ rfl
    have noFlush : args.op.has .flush = false := by rw [isOp]; cases signalOp <;> decide
    have isSignal : args.op.has .vaSignal = true := by rw [isOp]; cases signalOp <;> decide
    have noInline : args.hasInline = false := isArgs ▸ rfl
    obtain ⟨signalOff, window⟩ := get_vaSignal memory noFlush noInline isSignal
      (show args.signalOff = signalOff.setWidth 64 from isArgs ▸ rfl)
      (show args.signalWindow = signalWindow.setWidth 64 from isArgs ▸ rfl)
    have strong : (buildGfd memory args).extractIsStrongSignal = isStrong :=
      extractIsStrongSignal_buildGfd memory noFlush (isArgs ▸ rfl)
    have value : (buildGfd memory args).extractSignalVal = signalVal :=
      extractSignalVal_buildGfd memory noFlush (isArgs ▸ rfl)
    have mapped : (buildGfd memory args).mapGfdOpToSignalOp = some signalOp := by
      rw [mapGfdOpToSignalOp, extractOp_buildGfd, isOp]
      cases signalOp <;> decide
    simp [GinProxyGfd.request, extractOp_buildGfd, isSignal, signalOff, window, strong, value, mapped,
      GinProxyCall.request]
  | get srcOff srcHandle dstOff dstHandle bytes =>
    generalize isArgs : GinProxyCall.args _ = args
    have isOp : args.op = .get := isArgs ▸ rfl
    have noFlush : args.op.has .flush = false := by rw [isOp]; decide
    have noSignal : args.op.has .vaSignal = false := by rw [isOp]; decide
    have isGet : args.op.has .get = true := by rw [isOp]; decide
    have noInline : args.hasInline = false := isArgs ▸ rfl
    obtain ⟨fromOff, fromHandle⟩ := get_src memory noFlush noInline noSignal
      (show args.srcOff = srcOff.setWidth 64 from isArgs ▸ rfl)
      (show args.srcHandle = srcHandle.setWidth 64 from isArgs ▸ rfl)
    obtain ⟨toOff, toHandle⟩ := get_dst memory noFlush (show args.dstOff = dstOff.setWidth 64 from isArgs ▸ rfl)
      (show args.dstHandle = dstHandle.setWidth 64 from isArgs ▸ rfl)
    have sized : (buildGfd memory args).get GinProxyGfd.size = bytes.setWidth 64 := by
      rw [get_size, ← isArgs]
      exact setWidth_roundtrip bytes (by decide)
    simp [GinProxyGfd.request, extractOp_buildGfd, noSignal, isGet, fromOff,
      fromHandle, toOff, toHandle, sized, GinProxyCall.request]
  | flush =>
    generalize isArgs : GinProxyCall.args _ = args
    have isOp : args.op = .flush := isArgs ▸ rfl
    have noSignal : args.op.has .vaSignal = false := by rw [isOp]; decide
    have noGet : args.op.has .get = false := by rw [isOp]; decide
    have isFlush : args.op.has .flush = true := by rw [isOp]; decide
    simp [GinProxyGfd.request, extractOp_buildGfd, noSignal, noGet, isFlush,
      GinProxyCall.request]

/-- Only a put has an inline value or a counter. -/
theorem op_plain (other : (call matches .put ..) = false) :
    call.args.op.has .withInline = false ∧ call.args.op.has .withCounter = false := by
  cases call with
  | put => cases other
  | vaSignal signalWindow signalOff signalOp signalVal isStrong =>
    change (constructProxyOp false false false .va signalOp false).has .withInline = false ∧
      (constructProxyOp false false false .va signalOp false).has .withCounter = false
    cases signalOp <;> decide
  | get =>
    change GinProxyOp.get.has .withInline = false ∧ GinProxyOp.get.has .withCounter = false
    decide
  | flush => decide

/-- The value of an inline put is what the host puts in the slot, and there is none for
other calls. -/
theorem inlined_buildGfd :
    (if (buildGfd memory call.args).isInline then some (buildGfd memory call.args).inlineVal else none) =
      call.inlined := by
  simp only [isInline, extractOp_buildGfd]
  cases call with
  | put source dstOff dstHandle signal counter isStrong =>
    obtain ⟨noFlush, noSignal, noGet, inlined, -⟩ := op_put source dstOff dstHandle signal counter isStrong
    generalize isArgs : GinProxyCall.args _ = args at *
    cases source with
    | window =>
      rw [inlined, GinProxySource.hasInline, Bool.and_false]
      rfl
    | value bits sizeofT small fits =>
      have sent : (buildGfd memory args).inlineVal = bits := by
        rw [inlineVal_buildGfd memory noFlush (isArgs ▸ rfl) (isArgs ▸ small) (isArgs ▸ rfl) (isArgs ▸ fits), ← isArgs]
        rfl
      rw [noFlush, noSignal, noGet, inlined, sent]
      rfl
  | _ =>
    rw [(op_plain _ rfl).1, Bool.and_false]
    rfl

/-- The counter that is kept in the host's state has 16 bits. -/
theorem counter_buildGfd :
    (if call.args.op.has .withCounter then
      some (((buildGfd memory call.args).get counterId).setWidth 16).toNat else none) =
      call.counter.map fun counter => counter.toNat % 2 ^ 16 := by
  cases call with
  | put source dstOff dstHandle signal counter isStrong =>
    obtain ⟨noFlush, -, -, -, counted, -⟩ := op_put source dstOff dstHandle signal counter isStrong
    generalize isArgs : GinProxyCall.args _ = args at *
    rw [counted]
    cases counter with
    | none => rfl
    | some =>
      rw [(get_target memory noFlush).2.2.1, ← isArgs]
      simp only [GinProxyCall.args, GinProxyCall.counter, isSome_some, if_true, getD_some, map_some, toNat_setWidth]
      congr 1
      omega
  | _ =>
    rw [(op_plain _ rfl).2]
    rfl

end NcclCore.GinProxyGfdProofs
