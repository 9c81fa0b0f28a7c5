/-
  Transport/Removals.lean --- what the removing calls report, and what they do.

  `LPop`, `RPop` and `SRem` drop the error of the `Set` that stores the shorter payload.  `HDel` returns
  it, but leaves the bytes of the value, and these can name the field again.  A pop returns a slice of
  the old payload, which is sound as long as the new one is not stored over it.
-/
import Horreum.Transport.FailedWrites

set_option autoImplicit false

namespace Horreum.Transport

open Foundation
open Arena (Handle Manager maxObjectSize)
open Ds (IsList IsSet IsHash Popped Pops listBytes leftover)

namespace ShardCache

variable {H : Hashes} {s s' : ShardCache} {env : Env} {key raw value : Bytes} {xs : List Bytes}
  {call : AnyCall}

/-! ## What the calls do -/

theorem Erased.lookup_none (h : Safe H s) (her : Erased H s (s.idx.lookup key).toList s') :
    s'.idx.lookup key = none := by
  rw [her.removed.lookup]
  cases hl : s.idx.lookup key with
  | none => simp
  | some e => simp [h.idx.key_of_lookup hl]

theorem seen_of_lookup_none (h : s.idx.lookup key = none) (now : UInt32) :
    s.seen now key = some (.error .notFound) := by
  simp [seen, hit, h]

theorem Stores.seen_forever (h : Stores s env key value 0 s') (now : UInt32) :
    s'.seen now key = some (.ok value) := by
  rw [h.seen, if_neg (fun hz => hz.1 rfl)]

/-- The slice of a pop reads what the arena has. -/
theorem reread_congr {t t' : ShardCache} (h : ∀ g, t'.mgr.view g = t.mgr.view g) (now : UInt32)
    (key : Bytes) (off : Nat) (bytes : Bytes) :
    s.reread H t' now key off bytes = s.reread H t now key off bytes := by
  simp only [reread, h]

theorem Safe.reread_self (h : Safe H s) {now : UInt32} (hread : s.seen now key = some (.ok raw))
    {t : ShardCache} (hview : ∀ g, s.viewed H now key = some g → t.mgr.view g = s.mgr.view g)
    {off : Nat} {bytes : Bytes} (hat : slice raw off (off + bytes.length) = bytes) :
    s.reread H t now key off bytes = bytes := by
  unfold reread
  cases hv : s.viewed H now key with
  | none => rfl
  | some g =>
    obtain ⟨_, raw', _, _, _, _, hraw, hseen⟩ := h.viewed_cases hv
    cases hread.symm.trans hseen
    simp only [hview g hv, hraw, hat]

/-- What becomes of a key for which `newRaw` is left: it is removed with the last of it, or it
stays as it was because `Set` is refused, or the rest is stored. -/
inductive Replaced (H : Hashes) (s : ShardCache) (env : Env) (key newRaw : Bytes)
    (s' : ShardCache) : Prop where
  | removed (hnil : newRaw = []) (her : Erased H s (s.idx.lookup key).toList s')
  | refused (hne : newRaw ≠ []) (hno : s.stores env newRaw = false) (hun : Undisturbed s s')
  | stored (hne : newRaw ≠ []) (hyes : s.stores env newRaw = true)
      (hst : Stores s env key newRaw 0 s')
      (hviews : ∀ g, s'.mgr.view g = ((s.asked env.now key).afterPut env newRaw).view g)

/-- Every outcome of the plan that stores what is left, or removes the key. -/
theorem Safe.update_replace {α : Type} {plan : Except Error Bytes → Plan α} {newRaw : Bytes}
    {value : α} (h : Safe H s) (hread : s.seen env.now key = some (.ok raw))
    (hplan : plan (.ok raw) = .replace newRaw value) :
    ∃ s', s.update H env key plan = some ((value, none), s') ∧ Progress H s s' ∧
      Replaced H s env key newRaw s' := by
  obtain ⟨read, hread', hspec⟩ := h.update env key plan
  cases hread.symm.trans hread'
  rw [hplan, Plan.replace] at hspec
  by_cases hnil : newRaw = []
  · rw [if_pos (by rw [hnil]; rfl)] at hspec
    obtain ⟨s', hup, hprog, her⟩ := hspec
    exact ⟨s', hup, hprog, .removed hnil her⟩
  · rw [if_neg (fun hlen => hnil (List.length_eq_zero_iff.mp hlen))] at hspec
    obtain ⟨res, s', hup, hprog, hspec⟩ := hspec
    refine ⟨s', hup, hprog, ?_⟩
    cases res with
    | error e => exact .refused hnil hspec.1 ((undisturbed_asked s env.now key).trans hspec.2)
    | ok b => exact .stored hnil hspec.1 hspec.2.1 hspec.2.2

theorem Safe.popWith_some {pop : Bytes → Option Popped} {p : Popped} (h : Safe H s)
    (hread : s.seen env.now key = some (.ok raw)) (hpop : pop raw = some p) :
    ∃ s', s.popWith H env key pop =
        some ((some (s.reread H s' env.now key p.off p.elem), none), s') ∧ Progress H s s' ∧
      Replaced H s env key p.newRaw s' := by
  have hplan : popPlan pop (.ok raw) = .replace p.newRaw (some (p.off, p.elem)) := by
    simp only [popPlan, hpop]
  obtain ⟨s', hup, hprog, hcase⟩ := h.update_replace hread hplan
  exact ⟨s', by simp only [popWith, hup, Option.bind_eq_bind, Option.bind_some, Option.map_some],
    hprog, hcase⟩

theorem Safe.popWith_none {pop : Bytes → Option Popped} {read : Except Error Bytes} (h : Safe H s)
    (hread : s.seen env.now key = some read) (hpop : ∀ raw, read = .ok raw → pop raw = none) :
    ∃ e, s.popWith H env key pop = some ((none, some e), s.asked env.now key) := by
  obtain ⟨read', hread', hspec⟩ := h.update env key (popPlan pop)
  cases hread.symm.trans hread'
  cases read with
  | error e =>
    refine ⟨e, ?_⟩
    simp only [popPlan] at hspec
    simp only [popWith, hspec, Option.bind_eq_bind, Option.bind_some, Option.map_none]
  | ok raw =>
    refine ⟨.notFound, ?_⟩
    simp only [popPlan, hpop raw rfl] at hspec
    simp only [popWith, hspec, Option.bind_eq_bind, Option.bind_some, Option.map_none]

/-! ## Pops, one by one -/

/-- `Get` shows this list; a list without elements may also not be there. -/
def ListIs (H : Hashes) (s : ShardCache) (now : UInt32) (key : Bytes) (xs : List Bytes) : Prop :=
  s.read H now key = some (.error .notFound) ∧ xs = [] ∨
    ∃ raw, s.read H now key = some (.ok raw) ∧ IsList raw xs

/-- The pop returned an element and that element is gone, or it returned an error and the list is
as it was. -/
def PopExact (H : Hashes) (now : UInt32) (key : Bytes) (xs : List Bytes)
    (taken : Option (Bytes × List Bytes)) (out : Option Bytes × Option Error) (s' : ShardCache) :
    Prop :=
  (∃ x rest, taken = some (x, rest) ∧ out = (some x, none) ∧ ListIs H s' now key rest) ∨
    out.1 = none ∧ out.2.isSome = true ∧ ListIs H s' now key xs

/-- What a pop leaves can be stored, and not over the element it returns. -/
def PopStores (H : Hashes) (s : ShardCache) (env : Env) (key : Bytes)
    (pop : Bytes → Option Popped) (raw : Bytes) : Prop :=
  ∀ p ∈ pop raw, p.newRaw = [] ∨
    s.stores env p.newRaw = true ∧
      s.reread H { s with mgr := (s.asked env.now key).afterPut env p.newRaw } env.now key p.off
        p.elem = p.elem

instance (H : Hashes) (s : ShardCache) (env : Env) (key : Bytes) (pop : Bytes → Option Popped)
    (raw : Bytes) : Decidable (PopStores H s env key pop raw) :=
  inferInstanceAs (Decidable (∀ p ∈ pop raw, _))

theorem leftover_eq_nil : leftover xs = [] ↔ xs = [] := by
  unfold leftover
  split
  · simp_all
  · rename_i hne
    refine iff_of_false (fun hnil => ?_) hne
    have hlen := Ds.four_le_length_listBytes xs
    rw [hnil] at hlen
    simp at hlen

theorem IsList.rest {xs rest : List Bytes} (h : IsList raw xs) (hsub : List.Sublist rest xs) :
    IsList (listBytes rest) rest :=
  ⟨rfl, Nat.lt_of_le_of_lt hsub.length_le h.few, fun y hy => h.short y (hsub.mem hy)⟩

theorem ListIs.length_eq {now : UInt32} {xs ys : List Bytes} (h : ListIs H s now key xs)
    (hread : s.read H now key = some (.ok raw)) (hys : IsList raw ys) : xs.length = ys.length := by
  rcases h with ⟨hno, _⟩ | ⟨raw', hread', hxs⟩
  · cases hno.symm.trans hread
  · cases hread.symm.trans hread'
    exact hxs.count.symm.trans hys.count

/-- A pop with an element is exact if and only if it can store what it leaves. -/
theorem Safe.popExact_iff {pop : Bytes → Option Popped} {p : Popped} {x : Bytes}
    {xs rest : List Bytes} (h : Safe H s) (hread : s.read H env.now key = some (.ok raw))
    (hxs : IsList raw xs) (hsub : List.Sublist rest xs) (hlen : rest.length < xs.length)
    (hpop : pop raw = some p) (hp : Pops raw x rest p) :
    ∃ out s', s.popWith H env key pop = some (out, s') ∧
      (PopExact H env.now key xs (some (x, rest)) out s' ↔ PopStores H s env key pop raw) := by
  rw [h.read] at hread
  obtain ⟨s', hup, hprog, hcase⟩ := h.popWith_some hread hpop
  refine ⟨_, s', hup, ?_⟩
  have hstores : PopStores H s env key pop raw ↔ p.newRaw = [] ∨
      s.stores env p.newRaw = true ∧ s.reread H { s with
        mgr := (s.asked env.now key).afterPut env p.newRaw } env.now key p.off p.elem = p.elem := by
    simp only [PopStores, hpop, Option.mem_def, Option.some.injEq, forall_eq']
  have hexact : PopExact H env.now key xs (some (x, rest))
      (some (s.reread H s' env.now key p.off p.elem), none) s' ↔
      s.reread H s' env.now key p.off p.elem = x ∧ ListIs H s' env.now key rest := by
    constructor
    · rintro (⟨x', rest', htaken, hout, hlist⟩ | ⟨hnone, _⟩)
      · cases htaken
        exact ⟨Option.some.inj (Prod.mk.inj hout).1, hlist⟩
      · cases hnone
    · rintro ⟨rfl, hlist⟩
      exact .inl ⟨_, rest, rfl, rfl, hlist⟩
  rw [hexact, hstores, hp.elem]
  have hat : slice raw p.off (p.off + x.length) = x := hp.at_
  cases hcase with
  | removed hnil her =>
    refine iff_of_true ⟨?_, .inl ⟨?_, ?_⟩⟩ (.inl hnil)
    · exact h.reread_self hread (fun g _ => (her.frame g trivial).1) hat
    · rw [hprog.safe.read]
      exact seen_of_lookup_none (her.lookup_none h) env.now
    · rw [hp.newRaw, leftover_eq_nil] at hnil
      exact hnil
  | refused hne hno hun =>
    refine iff_of_false (fun hboth => ?_) (by simp [hne, hno])
    have hread' : s'.read H env.now key = some (.ok raw) := by
      rw [hprog.safe.read, hun.seen, hread]
    have := hboth.2.length_eq hread' hxs
    omega
  | stored hne hyes hst hviews =>
    have hrest : rest ≠ [] := fun hrest => hne (by rw [hp.newRaw, leftover_eq_nil]; exact hrest)
    have hraw : p.newRaw = listBytes rest := by rw [hp.newRaw, leftover, if_neg hrest]
    have hlist : ListIs H s' env.now key rest := by
      refine .inr ⟨listBytes rest, ?_, IsList.rest hxs hsub⟩
      rw [hprog.safe.read, hst.seen_forever, hraw]
    have hsame : s.reread H s' env.now key p.off x = s.reread H { s with
        mgr := (s.asked env.now key).afterPut env p.newRaw } env.now key p.off x :=
      reread_congr hviews env.now key p.off x
    simp only [hlist, and_true, hyes, true_and, hne, false_or, hsame]

theorem Safe.popExact_nil {pop : Bytes → Option Popped} (h : Safe H s)
    (hread : s.read H env.now key = some (.ok raw)) (hraw : IsList raw []) (hpop : pop raw = none)
    (taken : Option (Bytes × List Bytes)) :
    ∃ out s', s.popWith H env key pop = some (out, s') ∧
      (PopExact H env.now key [] taken out s' ↔ PopStores H s env key pop raw) := by
  have hread' := hread
  rw [h.read] at hread'
  obtain ⟨e, hup⟩ := h.popWith_none hread' (fun raw' heq => by cases heq; exact hpop)
  refine ⟨_, _, hup, iff_of_true (.inr ⟨rfl, rfl, .inr ⟨raw, ?_, hraw⟩⟩) ?_⟩
  · rw [(undisturbed_asked s env.now key).read h (h.asked env.now key).safe, hread]
  · intro p hp
    cases hpop.symm.trans hp

theorem Safe.lPop_exact_iff (h : Safe H s)
    (hread : s.read H env.now key = some (.ok raw)) (hxs : IsList raw xs) :
    ∃ out s', s.lPop H env key = some (out, s') ∧
      (PopExact H env.now key xs (xs.head?.map fun x => (x, xs.tail)) out s' ↔
        PopStores H s env key Ds.lPop raw) := by
  cases xs with
  | nil => exact h.popExact_nil hread hxs hxs.pop_nil.1 _
  | cons x rest =>
    obtain ⟨p, hpop, hp⟩ := hxs.lPop_cons
    exact h.popExact_iff hread hxs (List.sublist_cons_self x rest) (by simp) hpop hp

theorem Safe.rPop_exact_iff (h : Safe H s)
    (hread : s.read H env.now key = some (.ok raw)) (hxs : IsList raw xs) :
    ∃ out s', s.rPop H env key = some (out, s') ∧
      (PopExact H env.now key xs (xs.getLast?.map fun x => (x, xs.dropLast)) out s' ↔
        PopStores H s env key Ds.rPop raw) := by
  rcases List.eq_nil_or_concat xs with rfl | ⟨rest, x, rfl⟩
  · exact h.popExact_nil hread hxs hxs.pop_nil.2 _
  · rw [List.concat_eq_append] at hxs ⊢
    obtain ⟨p, hpop, hp⟩ := hxs.rPop_concat
    have hpop' := h.popExact_iff hread hxs (List.sublist_append_left rest [x]) (by simp) hpop hp
    have htaken : ((rest ++ [x]).getLast?.map fun y => (y, (rest ++ [x]).dropLast)) =
        some (x, rest) := by
      simp
    rw [htaken]
    exact hpop'

/-! ## `SRem` and `HDel`, one by one -/

/-- `Get` shows a set with this member. -/
def HasMember (H : Hashes) (s : ShardCache) (now : UInt32) (key member : Bytes) : Prop :=
  ∃ raw, s.read H now key = some (.ok raw) ∧ Ds.sIsMember raw member = true

/-- `Get` shows a hash with this field. -/
def HasField (H : Hashes) (s : ShardCache) (now : UInt32) (key field : Bytes) : Prop :=
  ∃ raw, s.read H now key = some (.ok raw) ∧ (Ds.hGet raw field).isSome = true

theorem not_shown_of_erased {p : Bytes → Prop} (h : Safe H s) (h' : Safe H s')
    (her : Erased H s (s.idx.lookup key).toList s') (now : UInt32) :
    ¬∃ raw, s'.read H now key = some (.ok raw) ∧ p raw := by
  rintro ⟨raw, hread, _⟩
  rw [h'.read, seen_of_lookup_none (her.lookup_none h)] at hread
  cases hread

theorem Stores.shows {p : Bytes → Prop} (h : Stores s env key value 0 s') (hs' : Safe H s')
    (now : UInt32) :
    (∃ raw, s'.read H now key = some (.ok raw) ∧ p raw) ↔ p value := by
  rw [hs'.read, h.seen_forever]
  simp

theorem Safe.sRem_exact_iff {member : Bytes} {ms : List Bytes} (h : Safe H s)
    (hread : s.read H env.now key = some (.ok raw)) (hms : IsSet raw ms) :
    ∃ out s', s.sRem H env key member = some (out, s') ∧
      ((out = (true, none) ↔
          HasMember H s env.now key member ∧ ¬HasMember H s' env.now key member) ↔
        ∀ newRaw, Ds.sRem raw member = some newRaw →
          newRaw = [] ∨ s.stores env newRaw = true) := by
  have hhas : HasMember H s env.now key member ↔ member ∈ ms := by
    simp only [HasMember, hread, Option.some.injEq, Except.ok.injEq, exists_eq_left',
      hms.sIsMember, decide_eq_true_eq]
  have hseen := hread
  rw [h.read] at hseen
  by_cases hmem : member ∈ ms
  · obtain ⟨a, b, rfl⟩ := List.append_of_mem hmem
    have hrem := hms.sRem
    have hplan : sRemPlan member (.ok raw) =
        .replace (if a ++ b = [] then [] else Ds.setBytes (a ++ b)) true := by
      simp only [sRemPlan, hrem]
    obtain ⟨s', hup, hprog, hcase⟩ := h.update_replace hseen hplan
    refine ⟨_, s', hup, ?_⟩
    simp only [hrem, Option.some.injEq, forall_eq', true_iff, hhas, hmem, true_and]
    cases hcase with
    | removed hnil her => exact iff_of_true (not_shown_of_erased h hprog.safe her _) (.inl hnil)
    | refused hne hno hun =>
      refine iff_of_false (fun hgone => hgone ?_)
        (by simp only [hne, hno, Bool.false_eq_true, or_self, not_false_eq_true])
      obtain ⟨raw', hraw', hin⟩ := hhas.mpr hmem
      exact ⟨raw', by rw [hun.read h hprog.safe, hraw'], hin⟩
    | stored hne hyes hst _ =>
      refine iff_of_true (fun hshown => ?_) (.inr hyes)
      have hmem' := (hst.shows hprog.safe env.now).mp hshown
      have hleft : a ++ b ≠ [] := fun hab => hne (if_pos hab)
      rw [if_neg hleft, hms.erase.sIsMember, decide_eq_true_eq] at hmem'
      exact (List.nodup_middle.mp hms.nodup).notMem hmem'
  · have hrem : Ds.sRem raw member = none := by
      simp only [Ds.sRem, if_neg hms.four_le_length, hms.find_none hmem, Option.map_none]
    obtain ⟨read, hread', hspec⟩ := h.update env key (sRemPlan member)
    cases hseen.symm.trans hread'
    simp only [sRemPlan, hrem] at hspec
    refine ⟨_, _, hspec, ?_⟩
    simp [hrem, hhas, hmem]

theorem Safe.hDel_exact_iff {field : Bytes} {fs : List (Bytes × Bytes)} (h : Safe H s)
    (hread : s.read H env.now key = some (.ok raw)) (hfs : IsHash raw fs) :
    ∃ out s', s.hDel H env key field = some (out, s') ∧
      ((out = (true, none) ↔ HasField H s env.now key field ∧ ¬HasField H s' env.now key field) ↔
        ∀ a value b, fs = a ++ (field, value) :: b →
          a ++ b = [] ∨ s.stores env (Ds.cutBytes a value b) = false ∨
            Ds.findField (value ++ b.flatMap Ds.pairRecord) field b.length 0 = none) := by
  have hhas : HasField H s env.now key field ↔ field ∈ fs.map Prod.fst := by
    simp only [HasField, hread, Option.some.injEq, Except.ok.injEq, exists_eq_left', hfs.hGet,
      decide_eq_true_eq]
  have hseen := hread
  rw [h.read] at hseen
  obtain ⟨read, hread', hspec⟩ := h.update env key (hDelPlan field)
  cases hseen.symm.trans hread'
  by_cases hmem : field ∈ fs.map Prod.fst
  · obtain ⟨⟨field', value⟩, hin, rfl⟩ := List.mem_map.mp hmem
    obtain ⟨a, b, rfl⟩ := List.append_of_mem hin
    simp only [hDelPlan, hfs.hDel] at hspec
    rw [hfs.forall_split]
    by_cases hnil : a ++ b = []
    · simp only [hnil, if_true, List.length_nil] at hspec
      obtain ⟨s', hup, hprog, her⟩ := hspec
      refine ⟨_, s', hup, ?_⟩
      refine iff_of_true ?_ (.inl hnil)
      exact iff_of_true rfl ⟨hhas.mpr hmem, not_shown_of_erased h hprog.safe her _⟩
    · have hlen : (Ds.cutBytes a value b).length ≠ 0 := by
        simp [Ds.cutBytes]
      simp only [hnil, if_false, hlen] at hspec
      obtain ⟨res, s', hup, hprog, hspec⟩ := hspec
      refine ⟨_, s', hup, ?_⟩
      cases res with
      | error e =>
        obtain ⟨hno, hun⟩ := hspec
        have hun' : Undisturbed s s' := (undisturbed_asked s env.now key).trans hun
        refine iff_of_true (iff_of_false (fun hout => ?_) fun hgone => hgone.2 ?_) (.inr (.inl hno))
        · cases hout
        · obtain ⟨raw', hraw', hf⟩ := hhas.mpr hmem
          exact ⟨raw', by rw [hun'.read h hprog.safe, hraw'], hf⟩
      | ok out =>
        obtain ⟨hyes, hst, _⟩ := hspec
        have hshows : HasField H s' env.now key field' ↔
            (Ds.findField (value ++ b.flatMap Ds.pairRecord) field' b.length 0).isSome = true := by
          rw [← hfs.hGet_cut]
          exact hst.shows hprog.safe env.now
        simp only [errorOf, true_iff, hhas, hmem, true_and, hshows, hyes, hnil, false_or,
          Option.not_isSome_iff_eq_none, Bool.true_eq_false]
  · have hrem : Ds.hDel raw field = none := by
      simp only [Ds.hDel, if_neg hfs.four_le_length, hfs.find_none hmem, Option.map_none]
    simp only [hDelPlan, hrem] at hspec
    refine ⟨_, _, hspec, iff_of_true ?_ ?_⟩
    · simp [hhas, hmem]
    · rintro a value b rfl
      exact absurd (by simp) hmem

/-! ## Whole runs -/

/-- A shard, with the elements that were pushed to one of its keys and those that pops of the key
have returned. -/
structure Deliveries where
  cache : ShardCache
  pushed : List Bytes
  delivered : List Bytes

namespace Deliveries

/-- A push counts once it reports success. -/
def push (key k elem : Bytes) (d : Deliveries) (out : (Nat × Option Error) × ShardCache) :
    Deliveries :=
  ⟨out.2, if k = key ∧ out.1.2 = none then elem :: d.pushed else d.pushed, d.delivered⟩

/-- A pop, and what it delivers. -/
def pop (key k : Bytes) (d : Deliveries)
    (out : (Option Bytes × Option Error) × ShardCache) : Deliveries :=
  ⟨out.2, d.pushed,
    if k = key ∧ out.1.2 = none then out.1.1.toList ++ d.delivered else d.delivered⟩

/-- One call, and what has been pushed and delivered by then. -/
def step (H : Hashes) (key : Bytes) (d : Deliveries) : AnyCall → Option Deliveries
  | (env, .inr (.lPush k elem)) => (d.cache.lPush H env k elem).map (d.push key k elem)
  | (env, .inr (.rPush k elem)) => (d.cache.rPush H env k elem).map (d.push key k elem)
  | (env, .inr (.lPop k)) => (d.cache.lPop H env k).map (d.pop key k)
  | (env, .inr (.rPop k)) => (d.cache.rPop H env k).map (d.pop key k)
  | call => (d.cache.step H call).map fun cache => { d with cache := cache }

end Deliveries

/-- The key is used as a list: it is pushed to, popped from and removed, and nothing else writes
it. -/
def usesAsList (key : Bytes) : Call ⊕ CollectionCall → Bool
  | .inr (.lPush _ _) => true
  | .inr (.rPush _ _) => true
  | .inr (.lPop _) => true
  | .inr (.rPop _) => true
  | .inl (.delete _) => true
  | .inl (.delPrefix _) => true
  | call => !writesKey key call

/-- A pop. -/
def isPop : Call ⊕ CollectionCall → Bool
  | .inr (.lPop _) => true
  | .inr (.rPop _) => true
  | _ => false

/-- The call uses the key as a list, gives up no block that can be handed out again, and can, if
it is a pop, store the shorter list. -/
def QueueCall (H : Hashes) (key : Bytes) (d : Deliveries) (call : AnyCall) : Prop :=
  SparesBlocks H d.cache call ∧ usesAsList key call.2 = true ∧
    (isPop call.2 = true → ∀ newRaw ∈ d.cache.rewritten call.1 call.2,
      d.cache.stores call.1 newRaw = true)

instance (H : Hashes) (key : Bytes) (d : Deliveries) (call : AnyCall) :
    Decidable (QueueCall H key d call) :=
  inferInstanceAs (Decidable (_ ∧ _ ∧ _))

/-- The key holds this list, live or overdue. -/
def ListAt (s : ShardCache) (key : Bytes) (xs : List Bytes) : Prop :=
  s.idx.lookup key = none ∧ xs = [] ∨
    ∃ e raw, s.idx.lookup key = some e ∧ s.load s.mgr e.handle = some (.ok raw) ∧ IsList raw xs

theorem ListAt.seen (h : ListAt s key xs) (now : UInt32) :
    s.seen now key = some (.error .notFound) ∨
      ∃ raw, s.seen now key = some (.ok raw) ∧ IsList raw xs := by
  rcases h with ⟨hnone, _⟩ | ⟨e, raw, he, hload, hxs⟩
  · exact .inl (seen_of_lookup_none hnone now)
  · by_cases hexp : e.expired now = true
    · exact .inl (by simp [ShardCache.seen, hit, he, Option.filter, hexp])
    · refine .inr ⟨raw, ?_, hxs⟩
      simpa [ShardCache.seen, hit, he, Option.filter, hexp] using hload

theorem listAt_nil (h : s.idx.lookup key = none) : ListAt s key [] := .inl ⟨h, rfl⟩

theorem Undisturbed.listAt (h : Undisturbed s s') (hat : ListAt s key xs) : ListAt s' key xs := by
  rcases hat with ⟨hnone, hxs⟩ | ⟨e, raw, he, hload, hxs⟩
  · exact .inl ⟨by rw [h.idx, hnone], hxs⟩
  · obtain ⟨hview, hflags⟩ := h.frame e.handle ⟨key, e, he, rfl⟩
    refine .inr ⟨e, raw, by rw [h.idx, he], ?_, hxs⟩
    rw [load_congr h.comp h.cipher hview hflags, hload]

theorem Leaves.listAt (h : Leaves H (· = key) s s') (hat : ListAt s key xs) : ListAt s' key xs := by
  rcases hat with ⟨hnone, hxs⟩ | ⟨e, raw, he, hload, hxs⟩
  · exact .inl ⟨by rw [h.lookup key rfl, hnone], hxs⟩
  · exact .inr ⟨e, raw, by rw [h.lookup key rfl, he], by rw [h.load rfl he, hload], hxs⟩

theorem Stores.listAt {expiresAt : UInt32} (h : Stores s env key value expiresAt s')
    (hxs : IsList value xs) : ListAt s' key xs := by
  obtain ⟨hd, hlook, hload⟩ := h.load
  exact .inr ⟨⟨key, hd, expiresAt⟩, value, by rw [hlook, Function.update_self], hload, hxs⟩

theorem isList_of_stores (h : Safe H s)
    (hst : s.stores env (listBytes xs) = true) : IsList (listBytes xs) xs :=
  Ds.isList_of_length (Nat.lt_of_le_of_lt ((h.stores_iff env _).mp hst).1 (by decide))

/-- The plan writes at most `elem` besides what is there, if it does not crash. -/
def Adds (plan : Plan Nat) (elem : Bytes) (xs : List Bytes) : Prop :=
  plan = .crash ∨ ∃ ys n, plan = .write (listBytes ys) none (fun err => (n, err)) ∧
    ∀ x, ys.count x ≤ (elem :: xs).count x

/-- A push adds its element if it reports success, and does nothing otherwise. -/
theorem Safe.push_counted {plan : Except Error Bytes → Plan Nat} {elem : Bytes}
    {out : (Nat × Option Error) × ShardCache} (h : Safe H s) (hat : ListAt s key xs)
    (hplan : ∀ read, s.seen env.now key = some read → Adds (plan read) elem xs)
    (hup : s.update H env key plan = some out) :
    ∃ ys, ListAt out.2 key ys ∧
      ∀ x, ys.count x ≤ (if out.1.2 = none then elem :: xs else xs).count x := by
  obtain ⟨read, hread, hspec⟩ := h.update env key plan
  rcases hplan read hread with hcrash | ⟨ys, n, hwrite, hcount⟩
  · rw [hcrash] at hspec
    cases hup.symm.trans hspec
  · rw [hwrite] at hspec
    obtain ⟨res, s', hup', _, hspec⟩ := hspec
    cases hup.symm.trans hup'
    cases res with
    | error e =>
      exact ⟨xs, ((undisturbed_asked s env.now key).trans hspec.2).listAt hat, fun x => le_refl _⟩
    | ok b => exact ⟨ys, hspec.2.1.listAt (isList_of_stores h hspec.1), hcount⟩

/-- A `Put` writes over no block of the index. -/
theorem Coherent.afterPut_view (hc : Coherent H s) {e : Entry} (he : s.idx.lookup key = some e)
    (env : Env) (value : Bytes) : (s.afterPut env value).view e.handle = s.mgr.view e.handle := by
  unfold afterPut
  split
  · rename_i p _
    obtain ⟨res, m', hput, hspec⟩ := Manager.put_spec hc.owns p.bytes env.mmapOk
    rw [hput, Option.map_some, Option.getD_some]
    cases res with
    | error err => exact (hspec.2.1 e.handle ⟨key, e, he, rfl⟩).1
    | ok hd => exact (hspec.frame e.handle ⟨key, e, he, rfl⟩).1
  · rfl

/-- Nothing that is stored comes to lie over the old payload. -/
theorem Replaced.view_entry {newRaw : Bytes} {e : Entry} (hrep : Replaced H s env key newRaw s')
    (h : Safe H s) (hc : Coherent H s) (he : s.idx.lookup key = some e) :
    s'.mgr.view e.handle = s.mgr.view e.handle := by
  cases hrep with
  | removed _ her => exact (her.frame e.handle trivial).1
  | refused _ _ hun => exact (hun.frame e.handle ⟨key, e, he, rfl⟩).1
  | stored _ _ _ hviews =>
    obtain ⟨_, hget, _⟩ := h.get env.now key
    have hk := get_kept hc hget
    rw [hviews, hk.coherent.afterPut_view (by rw [hk.idx]; exact he)]
    exact ((undisturbed_asked s env.now key).frame e.handle ⟨key, e, he, rfl⟩).1

/-- What is left of a list is there, if `Set` is not refused. -/
theorem Replaced.listAt {xs rest : List Bytes} (hrep : Replaced H s env key (leftover rest) s')
    (h : Safe H s) (hxs : IsList raw xs) (hsub : List.Sublist rest xs)
    (hstores : leftover rest ≠ [] → s.stores env (leftover rest) = true) : ListAt s' key rest := by
  cases hrep with
  | removed hnil her =>
    rw [leftover_eq_nil.mp hnil]
    exact listAt_nil (her.lookup_none h)
  | refused hne hno _ =>
    rw [hstores hne] at hno
    cases hno
  | stored hne _ hst _ =>
    rw [leftover, if_neg fun hrest => hne (leftover_eq_nil.mpr hrest)] at hst
    exact hst.listAt (IsList.rest hxs hsub)

/-- The pop takes an element out of the list, if there is one. -/
def Takes (pop : Bytes → Option Popped) (raw : Bytes) (xs : List Bytes) : Prop :=
  pop raw = none ∨ ∃ p x rest, pop raw = some p ∧ Pops raw x rest p ∧ List.Sublist rest xs ∧
    ∀ y, [x].count y + rest.count y ≤ xs.count y

/-- A pop that can store what it leaves delivers an element of the list and takes it out. -/
theorem Safe.pop_counted {pop : Bytes → Option Popped}
    {out : (Option Bytes × Option Error) × ShardCache} (h : Safe H s) (hc : Coherent H s)
    (hat : ListAt s key xs)
    (hpop : ∀ raw, IsList raw xs → Takes pop raw xs)
    (hstores : ∀ newRaw ∈ s.planned env key (popPlan pop), s.stores env newRaw = true)
    (hup : s.popWith H env key pop = some out) :
    ∃ ys, ListAt out.2 key ys ∧
      ∀ x, (if out.1.2 = none then out.1.1.toList else []).count x + ys.count x ≤ xs.count x := by
  obtain ⟨read, hread⟩ := h.seen_total env.now key
  by_cases hsome : ∃ raw, read = .ok raw ∧ IsList raw xs ∧ pop raw ≠ none
  · obtain ⟨raw, rfl, hxs, hsome⟩ := hsome
    obtain ⟨p, x, rest, hp, hpops, hsub, hcount⟩ := (hpop raw hxs).resolve_left hsome
    obtain ⟨s', hup', hprog, hrep⟩ := h.popWith_some hread hp
    cases hup.symm.trans hup'
    have helem : s.reread H s' env.now key p.off p.elem = x := by
      rw [hpops.elem]
      refine h.reread_self hread (fun g hv => ?_) hpops.at_
      obtain ⟨e, _, hhit, rfl, _⟩ := h.viewed_cases hv
      exact hrep.view_entry h hc (lookup_of_hit hhit).1
    have hplanned : p.newRaw ≠ [] → s.stores env p.newRaw = true := by
      intro hne
      have hlen : p.newRaw.length ≠ 0 := fun hz => hne (List.length_eq_zero_iff.mp hz)
      refine hstores _ ?_
      simp only [planned, hread, Option.map_some, popPlan, hp, Plan.replace, hlen, if_false]
      rfl
    refine ⟨rest, ?_, fun y => ?_⟩
    · rw [hpops.newRaw] at hrep hplanned
      exact hrep.listAt h hxs hsub hplanned
    · simp only [helem, if_true, Option.toList_some]
      exact hcount y
  · obtain ⟨e, hup'⟩ : ∃ e, s.popWith H env key pop = some ((none, some e), s.asked env.now key) := by
      refine h.popWith_none hread fun raw heq => ?_
      by_contra hne
      rcases hat.seen env.now with hno | ⟨raw', hraw', hxs⟩
      · rw [hread, heq] at hno
        cases hno
      · rw [hread, heq] at hraw'
        cases hraw'
        exact hsome ⟨raw, heq, hxs, hne⟩
    cases hup.symm.trans hup'
    exact ⟨xs, (undisturbed_asked s env.now key).listAt hat, fun x => by simp⟩

/-- A call that does not write the key leaves the list or sweeps it. -/
theorem Coherent.unwritten_list (hc : Coherent H s) (hat : ListAt s key xs)
    (hspare : SparesBlocks H s call) (hkey : writesKey key call.2 = false)
    (hstep : s.step H call = some s') : ∃ ys, ListAt s' key ys ∧ ∀ x, ys.count x ≤ xs.count x := by
  rcases hc.step_other hspare hkey hstep with hl | ⟨hnone, _⟩
  · exact ⟨xs, hl.listAt hat, fun x => le_refl _⟩
  · exact ⟨[], listAt_nil hnone, fun x => by simp⟩

/-- What has been delivered, and what is still there, was pushed. -/
structure AllPushed (H : Hashes) (key : Bytes) (d : Deliveries) : Prop where
  safe : Safe H d.cache
  coherent : Coherent H d.cache
  count : ∃ xs, ListAt d.cache key xs ∧
    ∀ x, d.delivered.count x + xs.count x ≤ d.pushed.count x

theorem lPushPlan_list (hat : ListAt s key xs) (elem : Bytes) (read : Except Error Bytes)
    (hread : s.seen env.now key = some read) : Adds (lPushPlan elem read) elem xs := by
  rcases hat.seen env.now with hno | ⟨raw, hraw, hxs⟩
  · cases hread.symm.trans hno
    refine .inr ⟨[elem], Ds.lLen (listBytes [elem]), ?_, fun x => List.Sublist.count_le x (by simp)⟩
    simp only [lPushPlan, payloadOf, Except.toOption, Option.getD_none, Ds.lPush_nil]
  · cases hread.symm.trans hraw
    refine .inr ⟨elem :: xs, Ds.lLen (listBytes (elem :: xs)), ?_, fun x => le_refl _⟩
    simp only [lPushPlan, payloadOf, Except.toOption, Option.getD_some, hxs.lPush]

theorem rPushPlan_list (hat : ListAt s key xs) (elem : Bytes) (read : Except Error Bytes)
    (hread : s.seen env.now key = some read) : Adds (rPushPlan elem read) elem xs := by
  rcases hat.seen env.now with hno | ⟨raw, hraw, hxs⟩
  · cases hread.symm.trans hno
    exact .inl rfl
  · cases hread.symm.trans hraw
    refine .inr ⟨xs ++ [elem], Ds.lLen (listBytes (xs ++ [elem])), ?_, fun x => ?_⟩
    · simp only [rPushPlan, payloadOf, Except.toOption, Option.getD_some, hxs.rPush]
    · rw [List.count_append, List.count_singleton, List.count_cons]

theorem lPop_list (raw : Bytes) (h : IsList raw xs) : Takes Ds.lPop raw xs := by
  cases xs with
  | nil => exact .inl h.pop_nil.1
  | cons x rest =>
    obtain ⟨p, hpop, hp⟩ := h.lPop_cons
    refine .inr ⟨p, x, rest, hpop, hp, List.sublist_cons_self x rest, fun y => ?_⟩
    rw [← List.count_append, List.singleton_append]

theorem rPop_list (raw : Bytes) (h : IsList raw xs) : Takes Ds.rPop raw xs := by
  rcases List.eq_nil_or_concat xs with rfl | ⟨rest, x, rfl⟩
  · exact .inl h.pop_nil.2
  · rw [List.concat_eq_append] at h ⊢
    obtain ⟨p, hpop, hp⟩ := h.rPop_concat
    refine .inr ⟨p, x, rest, hpop, hp, List.sublist_append_left rest [x], fun y => ?_⟩
    rw [List.count_append, Nat.add_comm]

theorem Deliveries.step_cache {d d' : Deliveries} (h : d.step H key call = some d') :
    d.cache.step H call = some d'.cache := by
  obtain ⟨env, call | call⟩ := call
  · obtain ⟨s, hs, rfl⟩ := Option.map_eq_some_iff.mp h
    exact hs
  · cases call <;>
      obtain ⟨out, hout, rfl⟩ := Option.map_eq_some_iff.mp h <;>
      first
      | exact hout
      | simp only [ShardCache.step, afterCollectionCall, hout, Option.map_some, push, pop]

variable {d d' : Deliveries}

theorem Deliveries.step_unwritten (hw : writesKey key call.2 = false)
    (h : d.step H key call = some d') : d'.pushed = d.pushed ∧ d'.delivered = d.delivered := by
  obtain ⟨env, call | call⟩ := call
  · obtain ⟨s, _, rfl⟩ := Option.map_eq_some_iff.mp h
    exact ⟨rfl, rfl⟩
  · cases call <;> obtain ⟨out, _, rfl⟩ := Option.map_eq_some_iff.mp h <;>
      simp_all [push, pop, writesKey]

theorem AllPushed.push_step {plan : Except Error Bytes → Plan Nat} {elem : Bytes}
    {out : (Nat × Option Error) × ShardCache} (h : AllPushed H key d)
    (hplan : ∀ xs, ListAt d.cache key xs → ∀ read, d.cache.seen env.now key = some read →
      Adds (plan read) elem xs)
    (hup : d.cache.update H env key plan = some out) :
    ∃ ys, ListAt out.2 key ys ∧
      ∀ x, d.delivered.count x + ys.count x ≤ (d.push key key elem out).pushed.count x := by
  obtain ⟨xs, hat, hcount⟩ := h.count
  obtain ⟨ys, hys, hle⟩ := h.safe.push_counted hat (hplan xs hat) hup
  refine ⟨ys, hys, fun x => ?_⟩
  have hx := hcount x
  have hy := hle x
  simp only [Deliveries.push, true_and]
  split at hy
  · rename_i hnone
    rw [if_pos hnone, List.count_cons]
    rw [List.count_cons] at hy
    omega
  · rename_i herr
    rw [if_neg herr]
    omega

theorem AllPushed.pop_step {pop : Bytes → Option Popped}
    {out : (Option Bytes × Option Error) × ShardCache} (h : AllPushed H key d)
    (hpop : ∀ {xs : List Bytes} raw, IsList raw xs → Takes pop raw xs)
    (hstores : ∀ newRaw ∈ d.cache.planned env key (popPlan pop), d.cache.stores env newRaw = true)
    (hup : d.cache.popWith H env key pop = some out) :
    ∃ ys, ListAt out.2 key ys ∧
      ∀ x, (d.pop key key out).delivered.count x + ys.count x ≤ d.pushed.count x := by
  obtain ⟨xs, hat, hcount⟩ := h.count
  obtain ⟨ys, hys, hle⟩ := h.safe.pop_counted h.coherent hat hpop hstores hup
  refine ⟨ys, hys, fun x => ?_⟩
  have hx := hcount x
  have hy := hle x
  simp only [Deliveries.pop, true_and]
  split at hy
  · rename_i hnone
    rw [if_pos hnone, List.count_append]
    omega
  · rename_i herr
    rw [if_neg herr]
    omega

/-- A plain call that writes the key removes it. -/
theorem Safe.lookup_none_of_plain {call : Call} (h : Safe H s)
    (huse : usesAsList key (.inl call) = true) (hw : writesKey key (.inl call) = true)
    (hstep : s.step H (env, .inl call) = some s') : s'.idx.lookup key = none := by
  cases call with
  | delete k =>
    obtain rfl : k = key := of_decide_eq_true hw
    obtain ⟨⟨res, t⟩, hdel, rfl⟩ := Option.map_eq_some_iff.mp hstep
    obtain ⟨_, _, hdel', _, her⟩ := h.delete k
    cases hdel.symm.trans hdel'
    exact her.lookup_none h
  | delPrefix pre =>
    obtain ⟨⟨n, t⟩, hdel, rfl⟩ := Option.map_eq_some_iff.mp hstep
    obtain ⟨_, _, _, hdel', _, _, _, hgone⟩ := h.delPrefix pre
    cases hdel.symm.trans hdel'
    exact hgone key (List.isPrefixOf_iff_prefix.mp hw)
  | _ => simp [usesAsList, hw] at huse

theorem AllPushed.step (h : AllPushed H key d) (hok : QueueCall H key d call)
    (hstep : d.step H key call = some d') : AllPushed H key d' := by
  have hcache := Deliveries.step_cache hstep
  obtain ⟨hspare, huse, hstores⟩ := hok
  have hsafe : Safe H d'.cache := by
    rcases h.safe.step call with ⟨_, hnone⟩ | ⟨_, t, ht, hprog⟩
    · cases hcache.symm.trans hnone
    · cases hcache.symm.trans ht
      exact hprog.safe
  refine ⟨hsafe, h.coherent.step hspare hcache, ?_⟩
  obtain ⟨xs, hat, hcount⟩ := h.count
  cases hw : writesKey key call.2 with
  | false =>
    obtain ⟨ys, hys, hle⟩ := h.coherent.unwritten_list hat hspare hw hcache
    obtain ⟨hpushed, hdelivered⟩ := Deliveries.step_unwritten hw hstep
    rw [hpushed, hdelivered]
    exact ⟨ys, hys, fun x => le_trans (Nat.add_le_add_left (hle x) _) (hcount x)⟩
  | true =>
    obtain ⟨env, call | call⟩ := call
    · obtain ⟨s', hs, rfl⟩ := Option.map_eq_some_iff.mp hstep
      refine ⟨[], listAt_nil (h.safe.lookup_none_of_plain huse hw hs), fun x => ?_⟩
      exact le_trans (Nat.add_le_add_left (by simp) _) (hcount x)
    · cases call with
      | lPush k elem | rPush k elem =>
        obtain rfl : k = key := of_decide_eq_true hw
        obtain ⟨out, hout, rfl⟩ := Option.map_eq_some_iff.mp hstep
        first
        | exact h.push_step (fun xs hat => lPushPlan_list hat elem) hout
        | exact h.push_step (fun xs hat => rPushPlan_list hat elem) hout
      | lPop k | rPop k =>
        obtain rfl : k = key := of_decide_eq_true hw
        obtain ⟨out, hout, rfl⟩ := Option.map_eq_some_iff.mp hstep
        first
        | exact h.pop_step lPop_list (hstores rfl) hout
        | exact h.pop_step rPop_list (hstores rfl) hout
      | _ => simp [usesAsList, hw] at huse

/-- One by one, the removals report what they do exactly when the `Set` behind them stores what is
left; for `HDel` that `Set` may also fail, but what is left must not name the field.  Where every
pop of a key can store what it leaves, each element is delivered at most as often as it was pushed,
over any run in which nothing else writes the key. -/
theorem removals_exact_iff (H : Hashes) :
    (∀ {s : ShardCache} {env : Env} {key raw : Bytes}, Reachable H s →
      s.read H env.now key = some (.ok raw) →
      (∀ {xs : List Bytes}, IsList raw xs →
        (∃ out s', s.lPop H env key = some (out, s') ∧
          (PopExact H env.now key xs (xs.head?.map fun x => (x, xs.tail)) out s' ↔
            PopStores H s env key Ds.lPop raw)) ∧
        ∃ out s', s.rPop H env key = some (out, s') ∧
          (PopExact H env.now key xs (xs.getLast?.map fun x => (x, xs.dropLast)) out s' ↔
            PopStores H s env key Ds.rPop raw)) ∧
      (∀ {ms : List Bytes} {member : Bytes}, IsSet raw ms →
        ∃ out s', s.sRem H env key member = some (out, s') ∧
          ((out = (true, none) ↔
              HasMember H s env.now key member ∧ ¬HasMember H s' env.now key member) ↔
            ∀ newRaw, Ds.sRem raw member = some newRaw →
              newRaw = [] ∨ s.stores env newRaw = true)) ∧
      ∀ {fs : List (Bytes × Bytes)} {field : Bytes}, IsHash raw fs →
        ∃ out s', s.hDel H env key field = some (out, s') ∧
          ((out = (true, none) ↔
              HasField H s env.now key field ∧ ¬HasField H s' env.now key field) ↔
            ∀ a value b, fs = a ++ (field, value) :: b →
              a ++ b = [] ∨ s.stores env (Ds.cutBytes a value b) = false ∨
                Ds.findField (value ++ b.flatMap Ds.pairRecord) field b.length 0 = none)) ∧
    ∀ {regionSize evictCapacity : Nat} {comp : Compress.Compressor} {cipher : Encrypt.Cipher}
      {s₀ : ShardCache} {d : Deliveries} (key : Bytes) (calls : List AnyCall),
      newShardCache regionSize evictCapacity comp cipher = some s₀ →
      Guarded (Deliveries.step H key) (QueueCall H key) ⟨s₀, [], []⟩ calls →
      run (Deliveries.step H key) ⟨s₀, [], []⟩ calls = some d →
      ∀ x, d.delivered.count x ≤ d.pushed.count x := by
  constructor
  · intro s env key raw hr hread
    have hs := hr.safe
    exact ⟨fun hxs => ⟨hs.lPop_exact_iff hread hxs, hs.rPop_exact_iff hread hxs⟩,
      fun hms => hs.sRem_exact_iff hread hms, fun hfs => hs.hDel_exact_iff hread hfs⟩
  · intro regionSize evictCapacity comp cipher s₀ d key calls hnew hguard hrun x
    obtain ⟨hcoh, hempty⟩ := coherent_new hnew
    have hstart : AllPushed H key ⟨s₀, [], []⟩ :=
      ⟨safe_newShardCache hnew, hcoh, [], listAt_nil (hempty key), fun y => by simp⟩
    obtain ⟨xs, _, hcount⟩ := (run_invariant (AllPushed H key)
      (fun _ _ _ hinv hok hstep => hinv.step hok hstep) calls _ d hstart hguard hrun).count
    have := hcount x
    omega

/-- A list, a set and a hash of two. -/
def threePairs : List AnyCall :=
  [(⟨0, none, true⟩, .inr (.lPush [108] [1])), (⟨0, none, true⟩, .inr (.lPush [108] [2])),
    (⟨0, none, true⟩, .inr (.sAdd [115] [1])), (⟨0, none, true⟩, .inr (.sAdd [115] [2])),
    (⟨0, none, true⟩, .inr (.hSet [104] [1] [5])), (⟨0, none, true⟩, .inr (.hSet [104] [2] [6]))]

/-- The list again, with two pops. -/
def pushesAndPops : List AnyCall :=
  [(⟨0, none, true⟩, .inr (.lPush [108] [1])), (⟨0, none, true⟩, .inr (.rPush [108] [2])),
    (⟨0, none, true⟩, .inr (.rPop [108])), (⟨0, none, true⟩, .inr (.lPop [108]))]

/-- In a large arena everything is as reported. -/
theorem removals_exact_iff_large_arena :
    (∃ s : ShardCache, stateAfter 64 40 threePairs = some s ∧
      (∃ out s', s.lPop Hashes.source ⟨0, none, true⟩ [108] = some (out, s') ∧
        PopExact Hashes.source 0 [108] [[2], [1]] (some ([2], [[1]])) out s') ∧
      (∃ out s', s.sRem Hashes.source ⟨0, none, true⟩ [115] [1] = some (out, s') ∧
        (out = (true, none) ↔ HasMember Hashes.source s 0 [115] [1] ∧
          ¬HasMember Hashes.source s' 0 [115] [1])) ∧
      ∃ out s', s.hDel Hashes.source ⟨0, none, true⟩ [104] [1] = some (out, s') ∧
        (out = (true, none) ↔ HasField Hashes.source s 0 [104] [1] ∧
          ¬HasField Hashes.source s' 0 [104] [1])) ∧
    ∃ s₀ d, newShardCache 64 40 .noop .noop = some s₀ ∧
      run (Deliveries.step Hashes.source [108]) ⟨s₀, [], []⟩ pushesAndPops = some d ∧
      ∀ x, d.delivered.count x ≤ d.pushed.count x := by
  have hlist : IsList (listBytes [[2], [1]]) [[2], [1]] := ⟨rfl, by decide, by decide⟩
  have hset : IsSet (Ds.setBytes [[1], [2]]) [[1], [2]] := ⟨rfl, by decide, by decide, by decide⟩
  have hhash : IsHash (Ds.hashBytes [([1], [5]), ([2], [6])]) [([1], [5]), ([2], [6])] :=
    ⟨rfl, by decide, by decide, by decide⟩
  obtain ⟨hone, hmany⟩ := removals_exact_iff Hashes.source
  constructor
  · obtain ⟨s, hs, hl, hm, hh, hpop, hst⟩ : ∃ s : ShardCache, stateAfter 64 40 threePairs = some s ∧
        s.read Hashes.source 0 [108] = some (.ok (listBytes [[2], [1]])) ∧
        s.read Hashes.source 0 [115] = some (.ok (Ds.setBytes [[1], [2]])) ∧
        s.read Hashes.source 0 [104] = some (.ok (Ds.hashBytes [([1], [5]), ([2], [6])])) ∧
        PopStores Hashes.source s ⟨0, none, true⟩ [108] Ds.lPop (listBytes [[2], [1]]) ∧
        s.stores ⟨0, none, true⟩ (Ds.setBytes [[2]]) = true := by
      decide +kernel
    have hr := reachable_stateAfter hs
    refine ⟨s, hs, ?_, ?_, ?_⟩
    · obtain ⟨⟨out, s', hcall, hiff⟩, _⟩ := (@hone s ⟨0, none, true⟩ _ _ hr hl).1 hlist
      exact ⟨out, s', hcall, hiff.mpr hpop⟩
    · obtain ⟨out, s', hcall, hiff⟩ := (@hone s ⟨0, none, true⟩ _ _ hr hm).2.1 hset
      refine ⟨out, s', hcall, hiff.mpr fun newRaw hrem => .inr ?_⟩
      cases hrem
      exact hst
    · obtain ⟨out, s', hcall, hiff⟩ := (@hone s ⟨0, none, true⟩ _ _ hr hh).2.2 hhash
      refine ⟨out, s', hcall, hiff.mpr fun a value b heq => .inr (.inr ?_)⟩
      obtain ⟨rfl, rfl, rfl⟩ := hhash.split_unique (a := []) heq
      decide
  · obtain ⟨s₀, hnew, hguard, d, hd⟩ : ∃ s₀, newShardCache 64 40 .noop .noop = some s₀ ∧
        Guarded (Deliveries.step Hashes.source [108]) (QueueCall Hashes.source [108]) ⟨s₀, [], []⟩
          pushesAndPops ∧
        ∃ d, run (Deliveries.step Hashes.source [108]) ⟨s₀, [], []⟩ pushesAndPops = some d := by
      decide +kernel
    exact ⟨s₀, d, hnew, hd, hmany [108] pushesAndPops hnew hguard hd⟩

/-- The list of two, in blocks of their own; the block of the list of one is handed out again. -/
def fullRegions : List AnyCall :=
  [(⟨0, none, true⟩, .inr (.lPush [108] [1])), (⟨0, none, true⟩, .inr (.lPush [108] [2])),
    (⟨0, none, true⟩, .inl (.set [98] (List.replicate 16 0) 0))]

/-- With no room for the shorter list, the same element is popped twice. -/
theorem lPop_delivers_twice :
    ∃ s s' s'' : ShardCache, stateAfter 16 40 fullRegions = some s ∧
      s.read Hashes.source 0 [108] = some (.ok (listBytes [[2], [1]])) ∧
      s.lPop Hashes.source ⟨0, none, false⟩ [108] = some ((some [2], none), s') ∧
      s'.read Hashes.source 0 [108] = some (.ok (listBytes [[2], [1]])) ∧
      s'.lPop Hashes.source ⟨0, none, false⟩ [108] = some ((some [2], none), s'') := by
  simp only [exists_and_left]
  decide +kernel

end ShardCache

end Horreum.Transport
