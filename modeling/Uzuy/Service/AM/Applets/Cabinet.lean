import Mathlib.Data.List.Basic
import Mathlib.Logic.Relation

/-!
# The cabinet applet

`core/hle/service/am/applets/applet_cabinet.cpp` is the library applet an application starts to
change an amiibo: set its nickname and owner, erase its game data, restore it or format it.
`Initialize` reads the start parameters from the applet broker; `Execute` opens an `NfpDevice` and
shows the frontend's cabinet dialog; when the dialog completes, `DisplayCompleted` makes the change
on the device and pushes a `ReturnValueForAmiiboSettings` back to the broker, and `Cancel` pushes
one that reports a cancel.

The device, the frontend and the broker are not part of the applet. The device is any state
machine with the methods the applet calls, the frontend may run the callback of each dialog it was
shown, and the broker is the queue of pushed outputs with a count of its state-changed signals.
Over every run, whatever the device does, no step dereferences a missing device, every output is
signalled and carries the start parameters' device handle, and the newest output reports
`Success`. The last fact holds because `DisplayCompleted` does not return after it calls `Cancel`:
a cancelled dialog pushes a `Cancel` output and then a `Success` one, and still makes its change on
the device after finalizing it.
-/

namespace Service.AM.Applets

/-- Modelled from the spec: `Service::NFP::DeviceState`, of which the applet tells apart only
`TagFound` and `TagMounted`. -/
inductive DeviceState
  | tagFound
  | tagMounted
  /-- Any other state of the device. -/
  | other
  deriving DecidableEq, Repr

/-- Modelled from the spec: `Service::NFP::CabinetMode`, the dialog the application asks for. The
applet copies it from the bytes of its start parameters, so it may hold none of the four. -/
inductive CabinetMode
  | startNicknameAndOwnerSettings
  | startGameDataEraser
  | startRestorer
  | startFormatter
  | unknown
  deriving DecidableEq, Repr

/-- Modelled from the spec: `CabinetResult`, the outcome the applet reports. -/
inductive CabinetResult
  | cancel
  | success
  deriving DecidableEq, Repr

/-- Modelled from the spec: the fields of `StartParamForAmiiboSettings` the applet reads. The tag
and register infos are passed to the frontend and never looked into. -/
structure StartParamForAmiiboSettings (TagInfo RegisterInfo : Type) where
  appletMode : CabinetMode
  deviceHandle : UInt64
  tagInfo : TagInfo
  registerInfo : RegisterInfo
  deriving DecidableEq

/-- Modelled from the spec: `ReturnValueForAmiiboSettings`. An info is `none` when the applet leaves
the value-initialised struct as it is: `Cancel` never fills it, and a failing `GetRegisterInfo` or
`GetTagInfo` does not. -/
structure ReturnValueForAmiiboSettings (TagInfo RegisterInfo : Type) where
  result : CabinetResult
  deviceHandle : UInt64
  registerInfo : Option RegisterInfo
  tagInfo : Option TagInfo
  deriving DecidableEq

/-- Modelled from the spec: `Core::Frontend::CabinetParameters`, what the dialog is shown with. -/
structure CabinetParameters (TagInfo RegisterInfo : Type) where
  tagInfo : TagInfo
  registerInfo : RegisterInfo
  mode : CabinetMode
  deriving DecidableEq

/-- Modelled from the spec: the `Service::NFP::NfpDevice` calls of the applet that act on the
device (`StartDetection` with `TagProtocol::All`, `Mount` with `MountTarget::All`). The applet
discards the `Result` of each. -/
inductive DeviceCall
  | initializeDevice
  | startDetection
  | mount
  | setNicknameAndOwner (name : List UInt8)
  | deleteApplicationArea
  | restoreAmiibo
  | deleteAllData
  | finalize
  deriving DecidableEq, Repr

/-- Modelled from the spec: an `NfpDevice` as a state machine over the states `σ`. -/
structure NfpDevice (σ TagInfo RegisterInfo : Type) where
  /-- The size of `Service::NFP::AmiiboName`, the buffer `SetNicknameAndOwner` takes. -/
  amiiboNameSize : Nat
  /-- The state `std::make_shared<NfpDevice>` starts the device in. -/
  created : σ
  getCurrentState : σ → DeviceState
  /-- What `GetRegisterInfo` writes, `none` when it fails and writes nothing. -/
  getRegisterInfo : σ → Option RegisterInfo
  /-- What `GetTagInfo` writes, `none` when it fails and writes nothing. -/
  getTagInfo : σ → Option TagInfo
  /-- What a call does to the device. -/
  call : DeviceCall → σ → σ

/-- The applet, with the broker and the frontend it talks to. -/
structure Cabinet (σ TagInfo RegisterInfo : Type) where
  /-- `applet_input_common`, the start parameters `Initialize` read. -/
  appletInputCommon : StartParamForAmiiboSettings TagInfo RegisterInfo
  /-- `nfp_device`, `none` while it is `nullptr`. -/
  nfpDevice : Option σ
  /-- `is_complete`. -/
  isComplete : Bool
  /-- The outputs pushed with `broker.PushNormalDataFromApplet`, oldest first. -/
  normalDataFromApplet : List (ReturnValueForAmiiboSettings TagInfo RegisterInfo)
  /-- How many times `broker.SignalStateChanged` was called. -/
  stateChangedSignals : Nat
  /-- The dialogs `frontend.ShowCabinetApplet` shows whose callback has not run, oldest first. -/
  pendingDialogs : List (CabinetParameters TagInfo RegisterInfo)
  deriving DecidableEq

variable {σ TagInfo RegisterInfo : Type}

/-- `Initialize`, given the storage `broker.PopNormalDataToApplet` returns: `none` for a `nullptr`,
which the `ASSERT` reports and `GetData` then dereferences. -/
def initializeCabinet (storage : Option (StartParamForAmiiboSettings TagInfo RegisterInfo)) :
    Option (Cabinet σ TagInfo RegisterInfo) := do
  let appletInputCommon ← storage
  pure
    { appletInputCommon
      nfpDevice := none
      isComplete := false
      normalDataFromApplet := []
      stateChangedSignals := 0
      pendingDialogs := [] }

/-- `TransactionComplete`. -/
def transactionComplete (s : Cabinet σ TagInfo RegisterInfo) : Bool := s.isComplete

/-- The end that `Cancel` and `DisplayCompleted` share: `is_complete = true`, the output pushed to
the broker, and the broker's state change signalled. -/
def complete (output : ReturnValueForAmiiboSettings TagInfo RegisterInfo)
    (s : Cabinet σ TagInfo RegisterInfo) : Cabinet σ TagInfo RegisterInfo :=
  { s with
    isComplete := true
    normalDataFromApplet := s.normalDataFromApplet ++ [output]
    stateChangedSignals := s.stateChangedSignals + 1 }

/-- The output `Cancel` pushes. -/
def cancelOutput (s : Cabinet σ TagInfo RegisterInfo) :
    ReturnValueForAmiiboSettings TagInfo RegisterInfo :=
  { result := .cancel
    deviceHandle := s.appletInputCommon.deviceHandle
    registerInfo := none
    tagInfo := none }

/-- `memccpy(name.data(), amiibo_name.data(), 0, name.size())` into a value-initialised
`AmiiboName` of `size` bytes: the bytes of `amiibo_name` up to and including its first zero byte
(the terminator `data()` ends with, when there is no earlier one), cut at `size`, then zeros. -/
def copyAmiiboName (size : Nat) (amiiboName : List UInt8) : List UInt8 :=
  let copied := (amiiboName.takeWhile (· != 0) ++ [0]).take size
  copied ++ List.replicate (size - copied.length) 0

/-- `SetNicknameAndOwner` gets a whole `AmiiboName`. -/
theorem copyAmiiboName_length (size : Nat) (amiiboName : List UInt8) :
    (copyAmiiboName size amiiboName).length = size := by
  have cut := List.length_take_le size (amiiboName.takeWhile (· != 0) ++ [0])
  simp only [copyAmiiboName, List.length_append, List.length_replicate]
  omega

/-- A name of `size` bytes or more with no zero byte reaches the device cut to `size` bytes, with
no terminator. -/
theorem copyAmiiboName_of_le {size : Nat} {amiiboName : List UInt8}
    (long : size ≤ amiiboName.length) (noZero : 0 ∉ amiiboName) :
    copyAmiiboName size amiiboName = amiiboName.take size := by
  have whole : amiiboName.takeWhile (· != 0) = amiiboName :=
    List.takeWhile_eq_self_iff.mpr fun byte member =>
      bne_iff_ne.mpr fun zero => noZero (zero ▸ member)
  simp only [copyAmiiboName, whole, List.take_append_of_le_length long, List.length_take,
    Nat.min_eq_left long, Nat.sub_self, List.replicate_zero, List.append_nil]

example : copyAmiiboName 4 [65, 66] = [65, 66, 0, 0] := by decide

/-- The call the switch of `DisplayCompleted` makes for a mode, with the `AmiiboName` it copies. -/
def modeCall (name : List UInt8) : CabinetMode → Option DeviceCall
  | .startNicknameAndOwnerSettings => some (.setNicknameAndOwner name)
  | .startGameDataEraser => some .deleteApplicationArea
  | .startRestorer => some .restoreAmiibo
  | .startFormatter => some .deleteAllData
  | .unknown => none

section Applet

variable (device : NfpDevice σ TagInfo RegisterInfo)

/-- `Cancel`; `none` when `nfp_device` is `nullptr`, which `Finalize` dereferences. -/
def cancel (s : Cabinet σ TagInfo RegisterInfo) : Option (Cabinet σ TagInfo RegisterInfo) := do
  let nfpDevice ← s.nfpDevice
  pure (complete (cancelOutput s) { s with nfpDevice := some (device.call .finalize nfpDevice) })

/-- `DisplayCompleted`; `none` when `nfp_device` is `nullptr`. It does not return after either
call of `Cancel`. -/
def displayCompleted (applyChanges : Bool) (amiiboName : List UInt8)
    (s : Cabinet σ TagInfo RegisterInfo) : Option (Cabinet σ TagInfo RegisterInfo) := do
  let s ← (if !applyChanges then cancel device s else pure s)
  let state := device.getCurrentState (← s.nfpDevice)
  let s ← (if state ≠ .tagFound ∧ state ≠ .tagMounted then cancel device s else pure s)
  let nfpDevice ← s.nfpDevice
  let nfpDevice := if device.getCurrentState nfpDevice ≠ .tagFound then
    device.call .mount nfpDevice else nfpDevice
  let name := copyAmiiboName device.amiiboNameSize amiiboName
  let nfpDevice := match modeCall name s.appletInputCommon.appletMode with
    | some call => device.call call nfpDevice
    | none => nfpDevice
  let output :=
    { result := .success
      deviceHandle := s.appletInputCommon.deviceHandle
      registerInfo := device.getRegisterInfo nfpDevice
      tagInfo := device.getTagInfo nfpDevice }
  pure (complete output { s with nfpDevice := some (device.call .finalize nfpDevice) })

/-- The `if (nfp_device == nullptr)` block of `Execute`: a new device, initialized and detecting
tags. -/
def openDevice (s : Cabinet σ TagInfo RegisterInfo) : Cabinet σ TagInfo RegisterInfo :=
  match s.nfpDevice with
  | none =>
    { s with
      nfpDevice := some (device.call .startDetection
        (device.call .initializeDevice device.created)) }
  | some _ => s

/-- `Execute`: nothing once complete; otherwise opens the device if there is none, then shows the
dialog for a known mode, and completes at once with `DisplayCompleted(false, {})` for an unknown
one. -/
def execute (s : Cabinet σ TagInfo RegisterInfo) : Option (Cabinet σ TagInfo RegisterInfo) :=
  if s.isComplete then pure s else
  let s := openDevice device s
  let parameters : CabinetParameters TagInfo RegisterInfo :=
    { tagInfo := s.appletInputCommon.tagInfo
      registerInfo := s.appletInputCommon.registerInfo
      mode := s.appletInputCommon.appletMode }
  match s.appletInputCommon.appletMode with
  | .unknown => displayCompleted device false [] s
  | _ => pure { s with pendingDialogs := s.pendingDialogs ++ [parameters] }

/-- The steps of a run: the applet broker calls `Execute`, the frontend runs the callback of the
oldest dialog it shows (all of them are the same callback), or the device changes: a tag is placed
or removed, or the frontend, which holds the device too, acts on it. -/
inductive Step : Cabinet σ TagInfo RegisterInfo → Cabinet σ TagInfo RegisterInfo → Prop
  | executed {s s' : Cabinet σ TagInfo RegisterInfo} : execute device s = some s' → Step s s'
  | dialogCompleted {s s' : Cabinet σ TagInfo RegisterInfo} {dialog rest} (applyChanges : Bool)
      (amiiboName : List UInt8) (shown : s.pendingDialogs = dialog :: rest)
      (completed :
        displayCompleted device applyChanges amiiboName { s with pendingDialogs := rest } =
          some s') : Step s s'
  | deviceChanged {s : Cabinet σ TagInfo RegisterInfo} (changed : σ)
      (present : s.nfpDevice.isSome) : Step s { s with nfpDevice := some changed }

/-- The states a run from `start` reaches. -/
def Reaches (start : Cabinet σ TagInfo RegisterInfo) : Cabinet σ TagInfo RegisterInfo → Prop :=
  Relation.ReflTransGen (Step device) start

end Applet

/-! ## What `Cancel` and `DisplayCompleted` push -/

/-- `s'` is `s` after the applet pushed `outputs` to the broker and signalled each: the start
parameters and the frontend's dialogs are as they were. -/
structure Pushed (s s' : Cabinet σ TagInfo RegisterInfo)
    (outputs : List (ReturnValueForAmiiboSettings TagInfo RegisterInfo)) : Prop where
  appletInputCommon : s'.appletInputCommon = s.appletInputCommon
  pendingDialogs : s'.pendingDialogs = s.pendingDialogs
  isComplete : s'.isComplete = (s.isComplete || !outputs.isEmpty)
  normalDataFromApplet : s'.normalDataFromApplet = s.normalDataFromApplet ++ outputs
  stateChangedSignals : s'.stateChangedSignals = s.stateChangedSignals + outputs.length

namespace Pushed

variable {s t u : Cabinet σ TagInfo RegisterInfo}
  {first second : List (ReturnValueForAmiiboSettings TagInfo RegisterInfo)}

theorem refl (s : Cabinet σ TagInfo RegisterInfo) : Pushed s s [] :=
  ⟨rfl, rfl, by simp, by simp, rfl⟩

theorem trans (pushedFirst : Pushed s t first) (pushedSecond : Pushed t u second) :
    Pushed s u (first ++ second) where
  appletInputCommon := pushedSecond.appletInputCommon.trans pushedFirst.appletInputCommon
  pendingDialogs := pushedSecond.pendingDialogs.trans pushedFirst.pendingDialogs
  isComplete := by
    rw [pushedSecond.isComplete, pushedFirst.isComplete, Bool.or_assoc]
    cases first <;> cases second <;> rfl
  normalDataFromApplet := by
    rw [pushedSecond.normalDataFromApplet, pushedFirst.normalDataFromApplet, List.append_assoc]
  stateChangedSignals := by
    rw [pushedSecond.stateChangedSignals, pushedFirst.stateChangedSignals, List.length_append,
      Nat.add_assoc]

theorem of_complete (output : ReturnValueForAmiiboSettings TagInfo RegisterInfo)
    (s : Cabinet σ TagInfo RegisterInfo) (nfpDevice : Option σ) :
    Pushed s (complete output { s with nfpDevice }) [output] :=
  ⟨rfl, rfl, by simp [complete], rfl, rfl⟩

end Pushed

section Applet

variable (device : NfpDevice σ TagInfo RegisterInfo) {s : Cabinet σ TagInfo RegisterInfo} {d : σ}

theorem cancel_eq (present : s.nfpDevice = some d) :
    cancel device s =
      some (complete (cancelOutput s) { s with nfpDevice := some (device.call .finalize d) }) := by
  rw [cancel, present]
  rfl

/-- Each `if (...) Cancel();` of `DisplayCompleted` leaves a device and pushes the `Cancel` output
when it cancels. -/
theorem cancel_if (present : s.nfpDevice = some d) (c : Prop) [Decidable c] :
    ∃ s', (if c then cancel device s else pure s) = some s' ∧
      s'.nfpDevice = some (if c then device.call .finalize d else d) ∧
      Pushed s s' (List.replicate (if c then 1 else 0) (cancelOutput s)) := by
  by_cases cancels : c
  · simp only [if_pos cancels, cancel_eq device present]
    exact ⟨_, rfl, rfl, Pushed.of_complete _ _ _⟩
  · simp only [if_neg cancels]
    exact ⟨s, rfl, present, Pushed.refl s⟩

/-- `DisplayCompleted` on a device pushes one `Cancel` output when the changes are not applied,
one more when the device, finalized by the first, holds no tag, and then a `Success` output. -/
theorem displayCompleted_pushed (present : s.nfpDevice = some d) (applyChanges : Bool)
    (amiiboName : List UInt8) :
    ∃ s', displayCompleted device applyChanges amiiboName s = some s' ∧ s'.nfpDevice.isSome ∧
      ∃ output, Pushed s s' (List.replicate ((if (!applyChanges) = true then 1 else 0) +
          let d₁ := if (!applyChanges) = true then device.call .finalize d else d
          if device.getCurrentState d₁ ≠ .tagFound ∧ device.getCurrentState d₁ ≠ .tagMounted then 1
          else 0) (cancelOutput s) ++ [output]) ∧
        output.result = .success ∧ output.deviceHandle = s.appletInputCommon.deviceHandle := by
  obtain ⟨s₁, first, present₁, pushed₁⟩ :=
    cancel_if device present ((!applyChanges) = true)
  generalize (if (!applyChanges) = true then device.call .finalize d else d) = d₁ at present₁ ⊢
  obtain ⟨s₂, second, present₂, pushed₂⟩ := cancel_if device present₁
    (device.getCurrentState d₁ ≠ .tagFound ∧ device.getCurrentState d₁ ≠ .tagMounted)
  simp only [displayCompleted, first, present₁, second, present₂, Option.bind_eq_bind,
    Option.some_bind]
  simp only [Option.pure_def, Option.some.injEq, exists_eq_left']
  have sameInput : cancelOutput s₁ = cancelOutput s := by
    simp only [cancelOutput, pushed₁.appletInputCommon]
  have pushed := pushed₁.trans (sameInput ▸ pushed₂)
  rw [List.append_replicate_replicate] at pushed
  refine ⟨rfl, _, pushed.trans (Pushed.of_complete _ s₂ _), rfl, ?_⟩
  rw [pushed₂.appletInputCommon, pushed₁.appletInputCommon]

/-- `Execute` leaves a device, and changes nothing else before its switch. -/
theorem openDevice_eq : ∃ d, openDevice device s = { s with nfpDevice := some d } := by
  unfold openDevice
  split
  · exact ⟨_, rfl⟩
  · rename_i d present
    exact ⟨d, by rw [← present]⟩

/-- What `Execute` can do: nothing once complete; otherwise, with the device it opened, complete
through `DisplayCompleted(false, {})`, or show a dialog, which changes nothing else. -/
theorem execute_cases {s' : Cabinet σ TagInfo RegisterInfo}
    (executed : execute device s = some s') :
    s' = s ∨ ∃ d, displayCompleted device false [] { s with nfpDevice := some d } = some s' ∨
      s' = { s with nfpDevice := some d, pendingDialogs := s'.pendingDialogs } := by
  rw [execute] at executed
  split at executed
  · exact .inl (Option.some.inj executed).symm
  obtain ⟨d, opened⟩ := openDevice_eq device (s := s)
  simp only [opened] at executed
  split at executed
  · exact .inr ⟨d, .inl executed⟩
  · cases executed
    exact .inr ⟨d, .inr rfl⟩

/-- `DisplayCompleted` returns only on a device. -/
theorem displayCompleted_present {s' : Cabinet σ TagInfo RegisterInfo} {applyChanges : Bool}
    {amiiboName : List UInt8}
    (completed : displayCompleted device applyChanges amiiboName s = some s') :
    ∃ d, s.nfpDevice = some d := by
  cases present : s.nfpDevice with
  | some d => exact ⟨d, rfl⟩
  | none => cases applyChanges <;> simp [displayCompleted, cancel, present] at completed

end Applet

/-! ## The run invariant -/

/-- What every state of a run keeps. -/
structure Invariant (s : Cabinet σ TagInfo RegisterInfo) : Prop where
  /-- Every push to the broker is signalled. -/
  signalled : s.stateChangedSignals = s.normalDataFromApplet.length
  /-- Every output carries the device handle of the start parameters. -/
  deviceHandles : ∀ output ∈ s.normalDataFromApplet,
    output.deviceHandle = s.appletInputCommon.deviceHandle
  /-- A shown dialog has a device to act on. -/
  shownOnDevice : s.pendingDialogs ≠ [] → s.nfpDevice.isSome
  /-- `TransactionComplete` holds once an output was pushed, and only then. -/
  transactionComplete : transactionComplete s = true ↔ s.normalDataFromApplet ≠ []
  /-- The newest output reports `Success`. -/
  newestSuccess : ∀ output ∈ s.normalDataFromApplet.getLast?, output.result = .success

namespace Invariant

variable (device : NfpDevice σ TagInfo RegisterInfo) {s s' : Cabinet σ TagInfo RegisterInfo}

theorem initializeCabinet {storage : Option (StartParamForAmiiboSettings TagInfo RegisterInfo)}
    (initialized : initializeCabinet storage = some s) : Invariant s := by
  cases storage with
  | none => cases initialized
  | some input =>
    cases (Option.some.inj initialized : _ = s)
    exact ⟨rfl, nofun, fun pending => absurd rfl pending, by simp [Applets.transactionComplete],
      nofun⟩

/-- Pushing `Cancel` outputs and then a `Success` output, all with the start parameters' device
handle, keeps the invariant. -/
theorem of_pushed (invariant : Invariant s) {cancels : Nat}
    {output : ReturnValueForAmiiboSettings TagInfo RegisterInfo}
    (pushed : Pushed s s' (List.replicate cancels (cancelOutput s) ++ [output]))
    (present : s'.nfpDevice.isSome) (success : output.result = .success)
    (handle : output.deviceHandle = s.appletInputCommon.deviceHandle) : Invariant s' where
  signalled := by
    simp only [pushed.stateChangedSignals, pushed.normalDataFromApplet, invariant.signalled,
      List.length_append]
  deviceHandles := by
    rw [pushed.normalDataFromApplet, pushed.appletInputCommon]
    intro pushedOutput member
    simp only [List.mem_append, List.mem_replicate, List.mem_singleton] at member
    rcases member with old | ⟨-, rfl⟩ | rfl
    · exact invariant.deviceHandles _ old
    · rfl
    · exact handle
  shownOnDevice _ := present
  transactionComplete := by
    simp [Applets.transactionComplete, pushed.isComplete, pushed.normalDataFromApplet]
  newestSuccess := by
    rw [pushed.normalDataFromApplet, ← List.append_assoc, List.getLast?_concat]
    rintro _ ⟨⟩
    exact success

theorem displayCompleted {d : σ} (invariant : Invariant s) (present : s.nfpDevice = some d)
    {applyChanges : Bool} {amiiboName : List UInt8}
    (completed : displayCompleted device applyChanges amiiboName s = some s') : Invariant s' := by
  obtain ⟨s'', done, present', _, pushed, success, handle⟩ :=
    displayCompleted_pushed device present applyChanges amiiboName
  cases Option.some.inj (completed.symm.trans done)
  exact invariant.of_pushed pushed present' success handle

theorem execute (invariant : Invariant s) (executed : execute device s = some s') :
    Invariant s' := by
  rcases execute_cases device executed with rfl | ⟨d, completed | shown⟩
  · exact invariant
  · have invariant' : Invariant { s with nfpDevice := some d } :=
      { invariant with shownOnDevice := fun _ => rfl }
    exact invariant'.displayCompleted device rfl completed
  · rw [shown]
    exact { invariant with shownOnDevice := fun _ => rfl }

/-- The device a shown dialog acts on. -/
theorem device_of_shown (invariant : Invariant s) {dialog rest}
    (shown : s.pendingDialogs = dialog :: rest) : ∃ d, s.nfpDevice = some d :=
  Option.isSome_iff_exists.mp (invariant.shownOnDevice (by rw [shown]; exact List.cons_ne_nil _ _))

theorem step (invariant : Invariant s) (step : Step device s s') : Invariant s' := by
  cases step with
  | executed executed => exact invariant.execute device executed
  | @dialogCompleted _ dialog rest applyChanges amiiboName shown completed =>
    obtain ⟨d, present⟩ := invariant.device_of_shown shown
    have invariant' : Invariant { s with pendingDialogs := rest } :=
      { invariant with shownOnDevice := fun _ => by rw [present]; rfl }
    exact invariant'.displayCompleted device present completed
  | deviceChanged changed _ => exact { invariant with shownOnDevice := fun _ => rfl }

theorem reaches {start : Cabinet σ TagInfo RegisterInfo} (invariant : Invariant start)
    (reaches : Reaches device start s) : Invariant s := by
  induction reaches with
  | refl => exact invariant
  | tail _ step holds => exact holds.step device step

end Invariant

/-! ## What a run only appends -/

/-- `s'` follows `s` in a run: the start parameters are as they were, the outputs of `s` are still
queued in their order, with the new ones after them and each signalled, and a complete transaction
stays complete. -/
structure Appended (s s' : Cabinet σ TagInfo RegisterInfo) : Prop where
  appletInputCommon : s'.appletInputCommon = s.appletInputCommon
  normalDataFromApplet : ∃ outputs,
    s'.normalDataFromApplet = s.normalDataFromApplet ++ outputs ∧
      s'.stateChangedSignals = s.stateChangedSignals + outputs.length
  isComplete : s.isComplete = true → s'.isComplete = true

namespace Appended

variable {s t u : Cabinet σ TagInfo RegisterInfo}

/-- A step that only moves the device or the frontend's dialogs appends nothing. -/
theorem of_frame (input : t.appletInputCommon = s.appletInputCommon)
    (data : t.normalDataFromApplet = s.normalDataFromApplet)
    (signals : t.stateChangedSignals = s.stateChangedSignals)
    (complete : t.isComplete = s.isComplete) : Appended s t :=
  ⟨input, ⟨[], by rw [data, List.append_nil], signals⟩, fun done => complete ▸ done⟩

theorem trans (first : Appended s t) (second : Appended t u) : Appended s u where
  appletInputCommon := second.appletInputCommon.trans first.appletInputCommon
  normalDataFromApplet := by
    obtain ⟨outputs, data, signals⟩ := first.normalDataFromApplet
    obtain ⟨outputs', data', signals'⟩ := second.normalDataFromApplet
    exact ⟨outputs ++ outputs', by rw [data', data, List.append_assoc],
      by rw [signals', signals, List.length_append, Nat.add_assoc]⟩
  isComplete done := second.isComplete (first.isComplete done)

theorem of_pushed {outputs : List (ReturnValueForAmiiboSettings TagInfo RegisterInfo)}
    (pushed : Pushed s t outputs) : Appended s t :=
  ⟨pushed.appletInputCommon,
    ⟨outputs, pushed.normalDataFromApplet, pushed.stateChangedSignals⟩,
    fun done => by rw [pushed.isComplete, done, Bool.true_or]⟩

variable (device : NfpDevice σ TagInfo RegisterInfo)

theorem displayCompleted {applyChanges : Bool} {amiiboName : List UInt8}
    (completed : displayCompleted device applyChanges amiiboName s = some t) : Appended s t := by
  obtain ⟨d, present⟩ := displayCompleted_present device completed
  obtain ⟨_, done, -, _, pushed, -⟩ :=
    displayCompleted_pushed device present applyChanges amiiboName
  cases Option.some.inj (completed.symm.trans done)
  exact .of_pushed pushed

theorem step (step : Step device s t) : Appended s t := by
  cases step with
  | executed executed =>
    rcases execute_cases device executed with rfl | ⟨d, completed | shown⟩
    · exact .of_frame rfl rfl rfl rfl
    · refine (of_frame ?_ ?_ ?_ ?_).trans (.displayCompleted device completed) <;> rfl
    · rw [shown]
      exact .of_frame rfl rfl rfl rfl
  | dialogCompleted _ _ _ completed =>
    refine (of_frame ?_ ?_ ?_ ?_).trans (.displayCompleted device completed) <;> rfl
  | deviceChanged => exact .of_frame rfl rfl rfl rfl

end Appended

section Runs

variable (device : NfpDevice σ TagInfo RegisterInfo) {s : Cabinet σ TagInfo RegisterInfo}

/-- `Execute` always returns, and the callback of a shown dialog does on a state of a run. -/
theorem steps_defined (invariant : Invariant s) :
    (execute device s).isSome ∧ ∀ dialog rest, s.pendingDialogs = dialog :: rest →
      ∀ applyChanges amiiboName,
        (displayCompleted device applyChanges amiiboName
          { s with pendingDialogs := rest }).isSome := by
  constructor
  · rw [execute]
    split
    · rfl
    obtain ⟨d, opened⟩ := openDevice_eq device (s := s)
    simp only [opened]
    split
    · obtain ⟨_, done, -⟩ :=
        displayCompleted_pushed device (s := { s with nfpDevice := some d }) rfl false []
      rw [done]
      rfl
    · rfl
  · intro dialog rest shown applyChanges amiiboName
    obtain ⟨d, present⟩ := invariant.device_of_shown shown
    obtain ⟨_, done, -⟩ :=
      displayCompleted_pushed device (s := { s with pendingDialogs := rest }) present applyChanges
        amiiboName
    rw [done]
    rfl

end Runs

/-! ## A run with a cancelled dialog -/

/-- A device whose state is the `DeviceState` it reports: it finds a tag once it detects, mounts a
found tag, and loses it when finalized. -/
def tagReader : NfpDevice DeviceState Unit Unit where
  amiiboNameSize := 4
  created := .other
  getCurrentState state := state
  getRegisterInfo _ := some ()
  getTagInfo _ := some ()
  call
    | .startDetection, _ => .tagFound
    | .mount, .tagFound => .tagMounted
    | .finalize, _ => .other
    | _, state => state

/-- Start parameters asking to format the amiibo of device handle 7. -/
def formatterStart : StartParamForAmiiboSettings Unit Unit :=
  { appletMode := .startFormatter, deviceHandle := 7, tagInfo := (), registerInfo := () }

/-- The applet `Initialize` makes from `formatterStart`. -/
def formatterCabinet : Cabinet DeviceState Unit Unit :=
  { appletInputCommon := formatterStart
    nfpDevice := none
    isComplete := false
    normalDataFromApplet := []
    stateChangedSignals := 0
    pendingDialogs := [] }

section Runs

variable (device : NfpDevice σ TagInfo RegisterInfo)
  {storage : Option (StartParamForAmiiboSettings TagInfo RegisterInfo)}
  {start s : Cabinet σ TagInfo RegisterInfo}

/-- Over every run of the applet, whatever its device does, every push is signalled, every output
carries the start parameters' device handle, a shown dialog has a device, `TransactionComplete`
holds exactly once an output was pushed, and the newest output reports `Success`. -/
theorem run_keeps_invariant (initialized : initializeCabinet storage = some start)
    (reaches : Reaches device start s) : Invariant s :=
  (Invariant.initializeCabinet initialized).reaches device reaches

/-- Formatting with the dialog cancelled: the applet pushes `Cancel`, `Cancel` and `Success`. -/
theorem formatter_cancelled_keeps_invariant :
    ∃ s, initializeCabinet (some formatterStart) = some formatterCabinet ∧
      Reaches tagReader formatterCabinet s ∧
      s.normalDataFromApplet.map (·.result) = [.cancel, .cancel, .success] ∧ Invariant s :=
  have initialized : initializeCabinet (some formatterStart) = some formatterCabinet := rfl
  have run : Reaches tagReader formatterCabinet _ := Relation.ReflTransGen.tail
    (Relation.ReflTransGen.single (Step.executed rfl)) (Step.dialogCompleted false [] rfl rfl)
  ⟨_, initialized, run, rfl, run_keeps_invariant tagReader initialized run⟩

/-- No step of a run dereferences a missing `nfp_device`: `Execute` returns, and so does the
callback of every dialog the frontend shows, whatever the device does. -/
theorem run_steps_defined (initialized : initializeCabinet storage = some start)
    (reaches : Reaches device start s) :
    (execute device s).isSome ∧ ∀ dialog rest, s.pendingDialogs = dialog :: rest →
      ∀ applyChanges amiiboName,
        (displayCompleted device applyChanges amiiboName
          { s with pendingDialogs := rest }).isSome :=
  steps_defined device ((Invariant.initializeCabinet initialized).reaches device reaches)

/-- After the formatter dialog is shown, its callback returns. -/
theorem formatter_shown_steps_defined :
    ∃ s, initializeCabinet (some formatterStart) = some formatterCabinet ∧
      Reaches tagReader formatterCabinet s ∧ s.pendingDialogs.length = 1 ∧
      (execute tagReader s).isSome ∧
      ∀ dialog rest, s.pendingDialogs = dialog :: rest → ∀ applyChanges amiiboName,
        (displayCompleted tagReader applyChanges amiiboName
          { s with pendingDialogs := rest }).isSome :=
  have initialized : initializeCabinet (some formatterStart) = some formatterCabinet := rfl
  have run : Reaches tagReader formatterCabinet _ :=
    Relation.ReflTransGen.single (Step.executed rfl)
  ⟨_, initialized, run, rfl, run_steps_defined tagReader initialized run⟩

/-- Between any two states of a run, from any state and whatever the device does, the applet only
appends to the broker's queue: the start parameters never change, the outputs already pushed stay
in their order with each new one signalled once, and a completed transaction stays complete. -/
theorem run_only_appends {s s' : Cabinet σ TagInfo RegisterInfo} (reaches : Reaches device s s') :
    Appended s s' := by
  induction reaches with
  | refl => exact .of_frame rfl rfl rfl rfl
  | tail _ step appended => exact appended.trans (.step device step)

/-- The cancelled formatter run appends its three outputs to the empty queue. -/
theorem formatter_cancelled_appends :
    ∃ s, Reaches tagReader formatterCabinet s ∧
      s.normalDataFromApplet.map (·.result) = [.cancel, .cancel, .success] ∧
      Appended formatterCabinet s :=
  have run : Reaches tagReader formatterCabinet _ := Relation.ReflTransGen.tail
    (Relation.ReflTransGen.single (Step.executed rfl)) (Step.dialogCompleted false [] rfl rfl)
  ⟨_, run, rfl, run_only_appends tagReader run⟩

end Runs

/-- The device after the calls `calls`, in order. -/
def NfpDevice.run (device : NfpDevice σ TagInfo RegisterInfo) (calls : List DeviceCall) (d : σ) :
    σ :=
  calls.foldl (fun d call => device.call call d) d

/-- The applet after `Execute` on `formatterCabinet`: a tag found, the formatter dialog shown. -/
def formatterShown : Cabinet DeviceState Unit Unit :=
  { formatterCabinet with
    nfpDevice := some .tagFound
    pendingDialogs := [{ tagInfo := (), registerInfo := (), mode := .startFormatter }] }

example : execute tagReader formatterCabinet = some formatterShown := rfl

section Cancelled

variable (device : NfpDevice σ TagInfo RegisterInfo) {s : Cabinet σ TagInfo RegisterInfo} {d : σ}

/-- `DisplayCompleted` does not return after `Cancel`: a dialog completed without applying the
changes pushes a `Cancel` output, a second one when the device finalized by the first is in
neither `TagFound` nor `TagMounted`, and then a `Success` output, whatever the device does. -/
theorem cancelled_dialog_pushes_cancel_then_success (present : s.nfpDevice = some d)
    (amiiboName : List UInt8) :
    ∃ s' output, displayCompleted device false amiiboName s = some s' ∧
      s'.normalDataFromApplet = s.normalDataFromApplet ++
        List.replicate
          (if device.getCurrentState (device.call .finalize d) ≠ .tagFound ∧
              device.getCurrentState (device.call .finalize d) ≠ .tagMounted then 2 else 1)
          (cancelOutput s) ++ [output] ∧
      output.result = .success := by
  obtain ⟨s', done, -, output, pushed, success, -⟩ :=
    displayCompleted_pushed device present false amiiboName
  refine ⟨s', output, done, ?_, success⟩
  rw [pushed.normalDataFromApplet, List.append_assoc]
  simp only [Bool.not_false, ↓reduceIte]
  split_ifs <;> rfl

/-- Cancelling the formatter dialog with a tag found: the finalized tag reader has no tag, so
two `Cancel` outputs come before the `Success`. -/
theorem formatterShown_cancelled_pushes :
    formatterShown.nfpDevice = some .tagFound ∧
      ∃ s' output, displayCompleted tagReader false [] formatterShown = some s' ∧
        s'.normalDataFromApplet = formatterShown.normalDataFromApplet ++
          List.replicate
            (if tagReader.getCurrentState (tagReader.call .finalize .tagFound) ≠ .tagFound ∧
                tagReader.getCurrentState (tagReader.call .finalize .tagFound) ≠ .tagMounted
              then 2 else 1)
            (cancelOutput formatterShown) ++ [output] ∧
        output.result = .success :=
  ⟨rfl, cancelled_dialog_pushes_cancel_then_success tagReader rfl []⟩

/-- A dialog completed without applying the changes still makes its change on the device: the
device gets `Cancel`'s `Finalize`, then at most a second `Finalize` and a `Mount`, in that order,
then the mode's change and the last `Finalize`. -/
theorem cancelled_dialog_still_changes_device (present : s.nfpDevice = some d)
    {amiiboName : List UInt8} {change : DeviceCall}
    (changes : modeCall (copyAmiiboName device.amiiboNameSize amiiboName)
      s.appletInputCommon.appletMode = some change) :
    ∃ s' between, displayCompleted device false amiiboName s = some s' ∧
      s'.nfpDevice = some (device.run (.finalize :: between ++ [change, .finalize]) d) ∧
      between.Sublist [.finalize, .mount] := by
  obtain ⟨s₁, first, present₁, pushed₁⟩ := cancel_if device present ((!false) = true)
  simp only [Bool.not_false, ↓reduceIte] at present₁
  obtain ⟨s₂, second, present₂, pushed₂⟩ := cancel_if device present₁
    (device.getCurrentState (device.call .finalize d) ≠ .tagFound ∧
      device.getCurrentState (device.call .finalize d) ≠ .tagMounted)
  have input : s₂.appletInputCommon = s.appletInputCommon :=
    pushed₂.appletInputCommon.trans pushed₁.appletInputCommon
  simp only [displayCompleted, first, present₁, second, present₂, Option.bind_eq_bind,
    Option.some_bind, input, changes]
  simp only [Option.pure_def, Option.some.injEq, exists_and_left, exists_eq_left', complete]
  split_ifs
  · exact ⟨[.finalize, .mount], rfl, .refl _⟩
  · exact ⟨[.finalize], rfl, .cons₂ _ (List.nil_sublist _)⟩
  · exact ⟨[.mount], rfl, .cons _ (.refl _)⟩
  · exact ⟨[], rfl, List.nil_sublist _⟩

/-- Cancelling the formatter dialog still formats the amiibo. -/
theorem formatterShown_cancelled_formats :
    formatterShown.nfpDevice = some .tagFound ∧
      modeCall (copyAmiiboName tagReader.amiiboNameSize [])
        formatterShown.appletInputCommon.appletMode = some .deleteAllData ∧
      ∃ s' between, displayCompleted tagReader false [] formatterShown = some s' ∧
        s'.nfpDevice =
          some (tagReader.run (.finalize :: between ++ [.deleteAllData, .finalize]) .tagFound) ∧
        between.Sublist [.finalize, .mount] :=
  ⟨rfl, rfl, cancelled_dialog_still_changes_device tagReader rfl rfl⟩

end Cancelled

end Service.AM.Applets
