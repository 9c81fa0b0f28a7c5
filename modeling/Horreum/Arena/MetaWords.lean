/-
  Arena/MetaWords.lean --- the meta word of one block under concurrent calls,
  `internal/arena/arena.go`.

  The calls speak of 16 bits of an `atomic.Int32`.  `IncFreq` and `SetFreq` work on all 32, while
  `OrMetaBits` and `ClearMetaBits` compare with what they have cut off: were a bit above the 16 set,
  their swaps would fail for ever.  No call sets one.
-/
import Horreum.Arena.Ownership
import Horreum.Foundation.CasLoop
import Mathlib.Data.List.Induction

set_option autoImplicit false

namespace Horreum.Arena

open Foundation

/-- The calls on a meta word. -/
inductive MetaOp where
  | incFreq
  | getFreq
  | setFreq (freq : UInt16)
  | setMeta (word : UInt16)
  | getMeta
  | casMeta (oldMeta newMeta : UInt16)
  | orMetaBits (bits : UInt16)
  | clearMetaBits (mask : UInt16)
  deriving DecidableEq, Repr

/-- What they return. -/
inductive MetaResult where
  | nothing
  | word (w : UInt16)
  | swapped (ok : Bool)
  deriving DecidableEq, Repr

namespace MetaOp

/-- `int32(0x3)` -/
def freqMask32 : UInt32 := 3

/-- What a call does when it looks at the word, which is given by the bits of the `int32`. -/
def act : MetaOp → UInt32 → Attempt UInt32 MetaResult
  | .incFreq, cur =>
    let freq := cur &&& freqMask32
    let nxt := (cur &&& ~~~freqMask32) ||| ((freq + 1) &&& freqMask32)
    .swap cur nxt (.word ((freq + 1) &&& freqMask32).toUInt16)
  | .getFreq, cur => .done (.word (cur &&& freqMask32).toUInt16)
  | .setFreq freq, cur =>
    let nxt := (cur &&& ~~~freqMask32) ||| (freq.toUInt32 &&& freqMask32)
    if nxt = cur then .done .nothing else .swap cur nxt .nothing
  | .setMeta word, _ => .put word.toUInt32 .nothing
  | .getMeta, cur => .done (.word cur.toUInt16)
  | .casMeta oldMeta newMeta, cur =>
    if cur = oldMeta.toUInt32 then .put newMeta.toUInt32 (.swapped true)
    else .done (.swapped false)
  | .orMetaBits bits, cur =>
    let current := cur.toUInt16
    let newVal := current ||| bits
    if newVal = current then .done .nothing else .swap current.toUInt32 newVal.toUInt32 .nothing
  | .clearMetaBits mask, cur =>
    let current := cur.toUInt16
    let newVal := current &&& ~~~mask
    if newVal = current then .done .nothing else .swap current.toUInt32 newVal.toUInt32 .nothing

/-- What a call does to the 16 bits, and what it returns. -/
def apply (w : UInt16) : MetaOp → MetaResult × UInt16
  | .incFreq =>
    (.word (((w &&& freqMask) + 1) &&& freqMask),
      (w &&& ~~~freqMask) ||| (((w &&& freqMask) + 1) &&& freqMask))
  | .getFreq => (.word (w &&& freqMask), w)
  | .setFreq freq => (.nothing, (w &&& ~~~freqMask) ||| (freq &&& freqMask))
  | .setMeta word => (.nothing, word)
  | .getMeta => (.word w, w)
  | .casMeta oldMeta newMeta =>
    if w = oldMeta then (.swapped true, newMeta) else (.swapped false, w)
  | .orMetaBits bits => (.nothing, w ||| bits)
  | .clearMetaBits mask => (.nothing, w &&& ~~~mask)

/-- No bit above the 16 is set. -/
def Short (cur : UInt32) : Prop := cur = cur.toUInt16.toUInt32

theorem short_toUInt32 (w : UInt16) : Short w.toUInt32 := by
  rw [Short, UInt16.toUInt16_toUInt32]

theorem toUInt32_and_mask (w : UInt16) (mask : UInt32) :
    w.toUInt32 &&& mask = (w &&& mask.toUInt16).toUInt32 := by
  refine UInt32.toBitVec_inj.mp (BitVec.eq_of_getLsbD_eq fun i hi => ?_)
  simp only [UInt32.toBitVec_and, UInt16.toBitVec_toUInt32, UInt16.toBitVec_and,
    UInt32.toBitVec_toUInt16, BitVec.getLsbD_and, BitVec.getLsbD_setWidth]
  by_cases hlow : i < 16
  · simp [hi, hlow]
  · simp [BitVec.getLsbD_of_ge w.toBitVec i (Nat.le_of_not_lt hlow)]

theorem freq_toUInt32 (w : UInt16) :
    ((w.toUInt32 &&& freqMask32) + 1) &&& freqMask32 =
      (((w &&& freqMask) + 1) &&& freqMask).toUInt32 := by
  have hle : w.toNat &&& 3 ≤ 3 := Nat.and_le_right
  rw [← UInt32.toNat_inj]
  simp only [freqMask32, freqMask, UInt32.toNat_and, UInt32.toNat_add, UInt16.toNat_toUInt32,
    UInt16.toNat_and, UInt16.toNat_add, UInt32.toNat_ofNat, UInt16.toNat_ofNat, Nat.reducePow,
    Nat.reduceMod]
  rw [Nat.mod_eq_of_lt (by omega), Nat.mod_eq_of_lt (by omega)]

/-- The calls on 32 bits are the calls on 16. -/
theorem spec_act (w : UInt16) (op : MetaOp) :
    CasLoop.spec act w.toUInt32 op = ((op.apply w).1, (op.apply w).2.toUInt32) := by
  have hkeep : w.toUInt32 &&& ~~~freqMask32 = (w &&& ~~~freqMask).toUInt32 :=
    toUInt32_and_mask w (~~~freqMask32)
  cases op with
  | incFreq =>
    simp only [CasLoop.spec, act, apply, freq_toUInt32, hkeep, UInt16.toUInt16_toUInt32,
      UInt16.toUInt32_or]
  | getFreq =>
    have hfreq : w.toUInt32 &&& freqMask32 = (w &&& freqMask).toUInt32 :=
      toUInt32_and_mask w freqMask32
    simp only [CasLoop.spec, act, apply, hfreq, UInt16.toUInt16_toUInt32]
  | setMeta word => rfl
  | getMeta => simp only [CasLoop.spec, act, apply, UInt16.toUInt16_toUInt32]
  | setFreq freq =>
    have hfreq : freq.toUInt32 &&& freqMask32 = (freq &&& freqMask).toUInt32 :=
      toUInt32_and_mask freq freqMask32
    have hact : act (.setFreq freq) w.toUInt32 =
        if ((w &&& ~~~freqMask) ||| (freq &&& freqMask)).toUInt32 = w.toUInt32 then .done .nothing
        else .swap w.toUInt32 ((w &&& ~~~freqMask) ||| (freq &&& freqMask)).toUInt32 .nothing := by
      simp only [act, hkeep, hfreq, UInt16.toUInt32_or]
    exact CasLoop.spec_of_skip hact id
  | casMeta oldMeta newMeta =>
    by_cases hw : w = oldMeta
    · rw [hw]
      simp [CasLoop.spec, act, apply]
    · have hw' : w.toUInt32 ≠ oldMeta.toUInt32 := fun heq => hw (UInt16.toUInt32_inj.mp heq)
      simp only [CasLoop.spec, act, apply, if_neg hw, if_neg hw']
  | orMetaBits bits =>
    have hact : act (.orMetaBits bits) w.toUInt32 = if w ||| bits = w then .done .nothing
        else .swap w.toUInt32 (w ||| bits).toUInt32 .nothing := by
      simp only [act, UInt16.toUInt16_toUInt32]
    exact CasLoop.spec_of_skip hact fun heq => congrArg UInt16.toUInt32 heq
  | clearMetaBits mask =>
    have hact : act (.clearMetaBits mask) w.toUInt32 = if w &&& ~~~mask = w then .done .nothing
        else .swap w.toUInt32 (w &&& ~~~mask).toUInt32 .nothing := by
      simp only [act, UInt16.toUInt16_toUInt32]
    exact CasLoop.spec_of_skip hact fun heq => congrArg UInt16.toUInt32 heq

theorem sound_act : CasLoop.Sound act Short := by
  constructor
  · intro op v e n r hshort hact
    cases op with
    | incFreq =>
      cases hact
      rfl
    | getFreq | setMeta | getMeta => cases hact
    | casMeta =>
      simp only [act] at hact
      split at hact <;> cases hact
    | setFreq =>
      simp only [act] at hact
      split at hact
      · cases hact
      · cases hact
        rfl
    | orMetaBits | clearMetaBits =>
      simp only [act] at hact
      split at hact
      · cases hact
      · cases hact
        exact hshort.symm
  · intro op v hshort
    rw [hshort, spec_act]
    exact short_toUInt32 _

/-- The calls of `Arena/Manager.lean` are these. -/
theorem modifyMeta_eq (m : Manager) (h : Handle) (freq bits mask : UInt16) :
    m.incFreq h = m.modifyMeta h (fun w => (apply w .incFreq).2) ∧
    m.setFreq h freq = m.modifyMeta h (fun w => (apply w (.setFreq freq)).2) ∧
    m.orMetaBits h bits = m.modifyMeta h (fun w => (apply w (.orMetaBits bits)).2) ∧
    m.clearMetaBits h mask = m.modifyMeta h (fun w => (apply w (.clearMetaBits mask)).2) :=
  ⟨rfl, rfl, rfl, rfl⟩

end MetaOp

/-- The meta word of one block, and the calls on it. -/
abbrev MetaWord := CasLoop MetaOp UInt32 MetaResult

namespace MetaWord

open MetaOp

variable {w₀ : UInt16} {s s₁ : MetaWord} {evs evs₁ : List (CasLoop.Event MetaOp)}

theorem linear_of_run (hrun : run (CasLoop.step act) (.start w₀.toUInt32) evs = some s) :
    CasLoop.Linear act Short w₀.toUInt32 s :=
  CasLoop.linear_of_run sound_act (short_toUInt32 w₀) hrun

/-- The 16 bits go through what the calls in the log do, one after the other. -/
theorem expected_apply (h : CasLoop.Linear act Short w₀.toUInt32 s) :
    expected apply w₀ (s.log.map fun e => e.2.1) = (s.log.map fun e => e.2.2, s.value.toUInt16) := by
  have hstep : ∀ (v : UInt32) (w : UInt16) (op : MetaOp), v = w.toUInt32 → True → True → True →
      (CasLoop.spec act v op).1 = (apply w op).1 ∧
        (CasLoop.spec act v op).2 = (apply w op).2.toUInt32 := by
    rintro v w op rfl _ _ _
    rw [spec_act]
    exact ⟨rfl, rfl⟩
  have hrefines := expected_refines hstep (s.log.map fun e => e.2.1) w₀.toUInt32 w₀ rfl
    (fun _ _ => trivial) (fun _ => trivial)
  rw [h.serial] at hrefines
  obtain ⟨hresults, hvalue⟩ := hrefines
  refine Prod.ext hresults.symm ?_
  show _ = s.value.toUInt16
  rw [show s.value = _ from hvalue, UInt16.toUInt16_toUInt32]

/-- **No call on a meta word is lost.**  Whatever calls run at the same time: done one after the
other in the order of `log`, they return what they have returned and leave the word that there is.
Every call that has returned is there once, and the order is the one in which they were made: what
had returned at any earlier time comes before whatever was called later. -/
theorem meta_calls_serial (w₀ : UInt16) {evs₁ evs : List (CasLoop.Event MetaOp)} {s₁ s : MetaWord}
    (hrun₁ : run (CasLoop.step act) (.start w₀.toUInt32) evs₁ = some s₁)
    (hrun : run (CasLoop.step act) s₁ evs = some s) :
    expected apply w₀ (s.log.map fun e => e.2.1) = (s.log.map fun e => e.2.2, s.value.toUInt16) ∧
    Short s.value ∧ (s.log.map Prod.fst).Nodup ∧
    (∀ i op r, (i, op, r) ∈ s.log ↔ s.calls[i]? = some (op, .returned r)) ∧
    ∃ later, s.log = s₁.log ++ later ∧
      (∀ i op r, (i, op, r) ∈ s₁.log ↔ s₁.calls[i]? = some (op, .returned r)) := by
  have h₁ := linear_of_run hrun₁
  have hwhole : run (CasLoop.step act) (.start w₀.toUInt32) (evs₁ ++ evs) = some s := by
    rw [run_append, hrun₁]
    exact hrun
  have h := linear_of_run hwhole
  obtain ⟨later, hlater⟩ := CasLoop.log_grows evs hrun
  exact ⟨expected_apply h, h.value, h.once, fun _ _ _ => h.mem_log_iff, later, hlater.symm,
    fun _ _ _ => h₁.mem_log_iff⟩

/-- A flag is set while two readers count: two swaps fail. -/
def contended : List (CasLoop.Event MetaOp) :=
  [.call (.orMetaBits compressedFlag), .call .incFreq, .call .incFreq, .go 0, .go 1, .go 1, .go 0, .go 2,
    .go 0, .go 0, .go 2, .go 2, .go 2]

theorem meta_calls_serial_contended : ∃ s : MetaWord,
    run (CasLoop.step act) (.start (0 : UInt16).toUInt32) contended = some s ∧
    s.log = [(1, .incFreq, .word 1), (0, .orMetaBits compressedFlag, .nothing), (2, .incFreq, .word 2)] ∧
    expected apply 0 (s.log.map fun e => e.2.1) = (s.log.map fun e => e.2.2, s.value.toUInt16) := by
  obtain ⟨s, hrun, hlog⟩ : ∃ s : MetaWord,
      run (CasLoop.step act) (.start (0 : UInt16).toUInt32) contended = some s ∧
      s.log = [(1, .incFreq, .word 1), (0, .orMetaBits compressedFlag, .nothing),
        (2, .incFreq, .word 2)] := by
    decide +kernel
  have hstart : run (CasLoop.step act) (.start (0 : UInt16).toUInt32 : MetaWord) [] =
      some (.start (0 : UInt16).toUInt32) := rfl
  exact ⟨s, hrun, hlog, (meta_calls_serial 0 hstart hrun).1⟩

/-! ## Flags -/

/-- The calls that the cache and its eviction make. -/
def OfCache : MetaOp → Prop
  | .incFreq | .getFreq | .setFreq _ | .getMeta | .orMetaBits _ => True
  | .clearMetaBits mask => mask = queueTagMask
  | .setMeta _ | .casMeta _ _ => False

instance : ∀ op, Decidable (OfCache op)
  | .incFreq | .getFreq | .setFreq _ | .getMeta | .orMetaBits _ => isTrue trivial
  | .clearMetaBits mask => inferInstanceAs (Decidable (mask = queueTagMask))
  | .setMeta _ | .casMeta _ _ => isFalse id

theorem or_and_self (flag w : UInt16) : flag ||| (w &&& flag) = flag := by
  refine UInt16.toBitVec_inj.mp (BitVec.eq_of_getLsbD_eq fun i hi => ?_)
  simp only [UInt16.toBitVec_or, UInt16.toBitVec_and, BitVec.getLsbD_or, BitVec.getLsbD_and]
  cases flag.toBitVec.getLsbD i <;> simp

/-- They set flags but clear none. -/
theorem OfCache.flag_kept {op : MetaOp} {flag w : UInt16} (hop : OfCache op)
    (hflag : flag &&& Manager.flagMask = flag) (hw : w &&& flag = flag) :
    (apply w op).2 &&& flag = flag := by
  have hsplit : ∀ v : UInt16, v &&& flag = (v &&& Manager.flagMask) &&& flag := fun v => by
    rw [UInt16.and_assoc, UInt16.and_comm Manager.flagMask, hflag]
  have hsame : ∀ v : UInt16, v &&& Manager.flagMask = w &&& Manager.flagMask → v &&& flag = flag :=
    fun v hv => by rw [hsplit, hv, ← hsplit, hw]
  have hfreq : ∀ x : UInt16, ((w &&& ~~~freqMask) ||| (x &&& freqMask)) &&& flag = flag := fun x =>
    hsame _ (by
      rw [Manager.word_or_and, UInt16.and_assoc, UInt16.and_assoc x, Manager.freqMask_clear,
        Manager.freqMask_flagMask]
      simp)
  cases op with
  | getFreq | getMeta => exact hw
  | setMeta | casMeta => exact hop.elim
  | incFreq => exact hfreq _
  | setFreq freq => exact hfreq freq
  | orMetaBits bits =>
    show (w ||| bits) &&& flag = flag
    rw [Manager.word_or_and, hw]
    exact or_and_self flag bits
  | clearMetaBits mask =>
    refine hsame _ ?_
    obtain rfl : mask = queueTagMask := hop
    show (w &&& ~~~queueTagMask) &&& _ = _
    rw [UInt16.and_assoc, show ~~~queueTagMask &&& Manager.flagMask = Manager.flagMask by decide]

/-- A flag that one of the calls sets is set at the end. -/
theorem flag_of_ops {flag : UInt16} (hflag : flag &&& Manager.flagMask = flag) (ops : List MetaOp) :
    (∀ op ∈ ops, OfCache op) → .orMetaBits flag ∈ ops → (expected apply w₀ ops).2 &&& flag = flag := by
  induction ops using List.reverseRecOn with
  | nil =>
    intro _ hmem
    cases hmem
  | append_singleton ops op ih =>
    intro hall hmem
    rw [expected_concat]
    have hop : OfCache op := hall op (List.mem_append_right _ (List.mem_singleton.mpr rfl))
    rcases List.mem_append.mp hmem with hold | hnew
    · exact hop.flag_kept hflag (ih (fun o ho => hall o (List.mem_append_left _ ho)) hold)
    · rw [← List.mem_singleton.mp hnew]
      show ((expected apply w₀ ops).2 ||| flag) &&& flag = flag
      rw [Manager.word_or_and, UInt16.and_self, UInt16.or_comm, or_and_self]

/-- **A flag stays.**  Whatever the cache and its eviction call on a block at the same time: once a
call that sets the flag of a compressed or an encrypted value has returned, the flag is set. -/
theorem meta_flag_kept (w₀ : UInt16) {evs : List (CasLoop.Event MetaOp)} {s : MetaWord} {flag : UInt16}
    {i : Nat} {r : MetaResult} (hflag : flag &&& Manager.flagMask = flag)
    (hrun : run (CasLoop.step act) (.start w₀.toUInt32) evs = some s)
    (hops : ∀ call ∈ s.calls, OfCache call.1)
    (hset : s.calls[i]? = some (.orMetaBits flag, .returned r)) : s.value.toUInt16 &&& flag = flag := by
  have h := linear_of_run hrun
  have hexp := congrArg Prod.snd (expected_apply h)
  rw [← show _ = s.value.toUInt16 from hexp]
  refine flag_of_ops hflag _ (fun op hop => ?_) ?_
  · obtain ⟨⟨j, op', r'⟩, he, rfl⟩ := List.mem_map.mp hop
    exact hops _ (List.mem_of_getElem? (h.mem_log_iff.mp he))
  · exact List.mem_map.mpr ⟨_, h.mem_log_iff.mpr hset, rfl⟩

theorem meta_flag_kept_contended : ∃ s : MetaWord,
    run (CasLoop.step act) (.start (0 : UInt16).toUInt32) contended = some s ∧
    s.value.toUInt16 &&& compressedFlag = compressedFlag := by
  obtain ⟨s, hrun, hops, hset⟩ : ∃ s : MetaWord,
      run (CasLoop.step act) (.start (0 : UInt16).toUInt32) contended = some s ∧
      (∀ call ∈ s.calls, OfCache call.1) ∧
      s.calls[0]? = some (.orMetaBits compressedFlag, .returned .nothing) := by
    decide +kernel
  exact ⟨s, hrun, meta_flag_kept 0 (by decide) hrun hops hset⟩

end MetaWord

end Horreum.Arena
