import Arcade.Propagation.Classes

/-!
When the classes of a pass depend on the responses only. The order of the responses never matters.
The order in which Go ranges over the map of a failure list does, in a chunk of one: of several
lines that name other transactions and rank the same, the first one visited is kept, and it may be a
verdict in one order and a missing parent in another.
-/

namespace Arcade.Propagation

open Lib Lib.GoMap Teranode List

/-! ## Which line is kept -/

/-- The order of `preferRejectionLine`: the score, and then whether a spender is named. -/
def lineRank (line : Text) : Int :=
  2 * rejectionLineScore line + if (competingSpenders line).length > 0 then 1 else 0

theorem preferRejectionLine_of_ne_nil {current candidate : Text} (hcurrent : current ≠ [])
    (hcandidate : candidate ≠ []) : preferRejectionLine current candidate =
      if lineRank current < lineRank candidate then candidate else current := by
  unfold preferRejectionLine lineRank
  rw [if_neg hcandidate, if_neg hcurrent]
  split_ifs <;> first | rfl | omega

variable {lines : List Text}

theorem foldl_preferRejectionLine_of_top {best : Text} (hbest : best ≠ [])
    (hlines : ∀ line ∈ lines, line ≠ [] ∧ lineRank line ≤ lineRank best) :
    lines.foldl preferRejectionLine best = best := by
  induction lines with
  | nil => rfl
  | cons line lines ih =>
    obtain ⟨hne, hle⟩ := hlines line mem_cons_self
    rw [foldl_cons, preferRejectionLine_of_ne_nil hbest hne, if_neg (not_lt.mpr hle)]
    exact ih fun l hl => hlines l (mem_cons_of_mem _ hl)

theorem lineRank_le_foldl {best : Text} (hbest : best ≠ []) (hlines : ∀ line ∈ lines, line ≠ []) :
    ∀ line ∈ best :: lines, lineRank line ≤ lineRank (lines.foldl preferRejectionLine best) := by
  induction lines generalizing best with
  | nil =>
    intro line hline
    obtain rfl := mem_singleton.mp hline
    exact le_rfl
  | cons first lines ih =>
    have hfirst := hlines first mem_cons_self
    have hrest := fun l hl => hlines l (mem_cons_of_mem _ hl)
    have hkept : preferRejectionLine best first ≠ [] :=
      (preferRejectionLine_ne_nil best first).mpr (.inl hbest)
    have hle := ih hkept hrest
    have hstep := hle _ mem_cons_self
    have hprefer := preferRejectionLine_of_ne_nil hbest hfirst
    rw [foldl_cons]
    intro line hline
    rcases mem_cons.mp hline with rfl | hline
    · rw [hprefer] at hstep ⊢
      split_ifs at hstep ⊢ <;> omega
    · rcases mem_cons.mp hline with rfl | hline
      · rw [hprefer] at hstep ⊢
        split_ifs at hstep ⊢ <;> omega
      · exact hle line (mem_cons_of_mem _ hline)

/-- The lines that no other one outranks. -/
def tops (lines : List Text) : List Text :=
  lines.filter fun line => ∀ line' ∈ lines, lineRank line' ≤ lineRank line

theorem foldl_preferRejectionLine_mem_tops (hne : lines ≠ []) (hlines : ∀ line ∈ lines, line ≠ []) :
    lines.foldl preferRejectionLine [] ∈ tops lines := by
  have hmem := foldl_preferRejectionLine_mem hne
  refine mem_filter.mpr ⟨hmem, decide_eq_true fun line hline => ?_⟩
  cases lines with
  | nil => exact absurd rfl hne
  | cons first lines =>
    rw [foldl_cons, preferRejectionLine_nil]
    exact lineRank_le_foldl (hlines first mem_cons_self)
      (fun l hl => hlines l (mem_cons_of_mem _ hl)) line hline

theorem mem_tops_perm {lines' : List Text} (h : lines.Perm lines') (line : Text) :
    line ∈ tops lines ↔ line ∈ tops lines' := by
  simp only [tops, mem_filter, decide_eq_true_eq, h.mem_iff]

/-- Ranging over a map may start with any of its keys. -/
def visitFirst (key : Text) : MapOrder Text where
  visit _ keys := if keys.contains key then key :: keys.erase key else keys
  perm _ keys := by
    split
    · rename_i h
      exact (perm_cons_erase (contains_iff_mem.mp h)).symm
    · exact .refl _

/-! ## The choices of a response -/

/-- The lines that may stand for those that could not be placed. -/
def choices (batch : List PropagationMsg) (failures : TxsFailures) : List Text :=
  if alienLines (.stored Text) batch failures = [] then [bestUnplaceableLine [] failures.unkeyed]
  else (tops (alienLines (.stored Text) batch failures)).map fun line =>
    bestUnplaceableLine line failures.unkeyed

section

variable (parse : TxParser) (batch : List PropagationMsg)
  (order : MapOrder Text) {failures : TxsFailures} {status i n : Nat} {heard : List Heard}
  {results : List Submitted}

theorem mem_choices_iff (hblank : NonBlank (.failed status failures)) (line : Text) :
    line ∈ choices batch failures ↔ ∃ order, bestUnplaceableLine
      (placement parse order batch failures).bestAlien failures.unkeyed = line := by
  simp only [bestAlien_eq]
  unfold choices
  have hperm := fun order => alienLines_perm order (.stored Text) batch failures
  split
  · rename_i hnil
    have hall : ∀ order, alienLines order batch failures = [] :=
      fun order => perm_nil.mp (hnil ▸ hperm order)
    simp only [hall, foldl_nil, mem_singleton, exists_const_iff, eq_comm]
    exact (and_iff_right ⟨.stored Text⟩).symm
  · rename_i hne
    rw [mem_map]
    constructor
    · rintro ⟨top, htop, rfl⟩
      obtain ⟨hmem, hmax⟩ := mem_filter.mp htop
      obtain ⟨key, hkey, rfl⟩ := mem_map.mp hmem
      obtain ⟨hin, hout⟩ := mem_filter.mp hkey
      refine ⟨visitFirst key, ?_⟩
      -- The key comes first, and nothing outranks its line.
      obtain ⟨rest, hrest⟩ : ∃ rest, alienLines (visitFirst key) batch failures =
          (failures.byKey.lookup key).getD [] :: rest := by
        have hvisit : (visitFirst key).visit [] failures.byKey.keys =
            key :: failures.byKey.keys.erase key :=
          if_pos (contains_iff_mem.mpr hin)
        have hfilter := filter_cons_of_pos (p := fun key => !(lowerTxids batch).contains key)
          (l := failures.byKey.keys.erase key) hout
        rw [alienLines, hvisit, hfilter, map_cons]
        exact ⟨_, rfl⟩
      have hvisited := hperm (visitFirst key)
      rw [hrest] at hvisited ⊢
      rw [foldl_cons, preferRejectionLine_nil,
        foldl_preferRejectionLine_of_top (ne_nil_of_mem_alienLines hblank hmem)]
      intro l hl
      have hl' := hvisited.mem_iff.mp (mem_cons_of_mem _ hl)
      exact ⟨ne_nil_of_mem_alienLines hblank hl', of_decide_eq_true hmax l hl'⟩
    · rintro ⟨order, rfl⟩
      refine ⟨_, (mem_tops_perm (hperm order) _).mp ?_, rfl⟩
      refine foldl_preferRejectionLine_mem_tops (fun hnil => hne ?_) fun line hline =>
        ne_nil_of_mem_alienLines hblank hline
      exact perm_nil.mp (hnil ▸ (hperm order).symm)

theorem placement_order (order' : MapOrder Text) (failures : TxsFailures) :
    (placement parse order batch failures).attributed =
        (placement parse order' batch failures).attributed ∧
      (placement parse order batch failures).unplaceable =
        (placement parse order' batch failures).unplaceable := by
  simp only [placement, alienFailureLines_count order, alienFailureLines_count order', and_self]

/-- The lines that a response routes to the transaction of a chunk of one: each is taken from one
list of choices. -/
def slots (result : Submitted) : List (List Text) :=
  match result with
  | .failed _ failures =>
    if failures.len = 0 then []
    else
      let pl := placement parse (.stored Text) batch failures
      (((lowerTxids batch)[0]?.bind failures.byKey.lookup).toList ++
        (pl.attributed.lookup 0).toList).map (fun line => [line]) ++
        if pl.unplaceable > 0 then [choices batch failures] else []
  | _ => []

theorem routed_order (hlen : batch.length ≠ 1) (order order' : MapOrder Text) (result : Submitted)
    (i : Nat) : routed parse order batch result i = routed parse order' batch result i := by
  cases result with
  | accepted => rfl
  | tooLarge => rfl
  | infra status => rfl
  | failed status failures =>
    obtain ⟨hattributed, -⟩ := placement_order parse batch order order' failures
    simp only [routed, hattributed, hlen, false_and, and_false, ↓reduceIte]

variable {parse batch} {result : Submitted}

/-- Some line that is routed to the transaction has the property in some order exactly if a line of
a slot has it, and in every order exactly if all lines of a slot have it. -/
theorem exists_routed_iff (hlen : batch.length = 1) (hblank : NonBlank result) (P : Text → Prop) :
    ((∃ order, ∃ line ∈ routed parse order batch result 0, P line) ↔
      ∃ slot ∈ slots parse batch result, ∃ line ∈ slot, P line) ∧
    ((∀ order, ∃ line ∈ routed parse order batch result 0, P line) ↔
      ∃ slot ∈ slots parse batch result, ∀ line ∈ slot, P line) := by
  have : Nonempty (MapOrder Text) := ⟨.stored Text⟩
  cases result with
  | accepted => simp [routed, slots]
  | tooLarge => simp [routed, slots]
  | infra status => simp [routed, slots]
  | failed status failures =>
    by_cases hzero : failures.len = 0
    · simp [routed, slots, hzero]
    have hchoices := mem_choices_iff parse batch hblank
    have horder := fun order => placement_order parse batch order (.stored Text) failures
    simp only [routed, slots, hzero, ↓reduceIte, (horder _).1, (horder _).2, hlen, and_true]
    generalize ((lowerTxids batch)[0]?.bind failures.byKey.lookup).toList ++ _ = fixed
    split
    · simp only [mem_append, mem_map, mem_singleton, or_and_right, exists_or, forall_or_left,
        exists_exists_and_eq_and, exists_eq_left, forall_eq, hchoices, exists_const]
      simp
    · simp

/-! ## Two passes over the same responses -/

theorem acceptedBy_order (order' : MapOrder Text) (indexOrder indexOrder' : MapOrder Nat)
    (result : Submitted) (hi : i < batch.length) :
    acceptedBy parse order indexOrder batch result i =
      acceptedBy parse order' indexOrder' batch result i := by
  cases result with
  | accepted => rfl
  | tooLarge => rfl
  | infra status => rfl
  | failed status failures =>
    by_cases hlen : failures.len = 0
    · simp only [acceptedBy, vote, hlen, ↓reduceIte]
    · rw [Bool.eq_iff_iff, acceptedBy_failed _ _ _ _ _ (List.getElem?_eq_getElem hi) hlen,
        acceptedBy_failed _ _ _ _ _ (List.getElem?_eq_getElem hi) hlen]

def Accepts (parse : TxParser)
    (batch : List PropagationMsg) (result : Submitted) (i : Nat) : Prop :=
  acceptedBy parse (.stored Text) (.stored Nat) batch result i = true

/-- The responses as they were heard, in some order. -/
def Hears (heard : List Heard) (results : List Submitted) : Prop :=
  (heard.map (·.result)).Perm results

theorem Hears.exists_iff (h : Hears heard results) (P : Submitted → Prop) :
    (∃ x ∈ heard, P x.result) ↔ ∃ result ∈ results, P result := by
  constructor
  · rintro ⟨x, hx, hP⟩
    exact ⟨x.result, h.mem_iff.mp (mem_map_of_mem hx), hP⟩
  · rintro ⟨result, hmem, hP⟩
    obtain ⟨x, hx, rfl⟩ := mem_map.mp (h.mem_iff.mpr hmem)
    exact ⟨x, hx, hP⟩

theorem Hears.nonBlank (h : Hears heard results) (hblank : ∀ result ∈ results, NonBlank result) :
    ∀ x ∈ heard, NonBlank x.result :=
  fun x hx => hblank x.result (h.mem_iff.mp (mem_map_of_mem hx))

theorem Hears.voted_iff (h : Hears heard results) (hi : i < batch.length) :
    Voted parse batch heard i ↔ ∃ result ∈ results, Accepts parse batch result i := by
  rw [← h.exists_iff fun result => Accepts parse batch result i]
  refine exists_congr fun x => and_congr_right fun _ => ?_
  rw [Accepts, acceptedBy_order x.order (.stored Text) x.indexOrder (.stored Nat) x.result hi]

/-- Some line of at least the rank `n` is routed to the transaction. -/
def FiledFrom (parse : TxParser)
    (batch : List PropagationMsg) (heard : List Heard) (i n : Nat) : Prop :=
  ∃ h ∈ heard, ∃ line ∈ routed parse h.order batch h.result i,
    n ≤ (lineKind line (statusHintOf h.result)).rank

theorem filed_verdict_iff : Filed parse batch heard i .verdict ↔
      FiledFrom parse batch heard i 2 := by
  refine exists_congr fun h => and_congr_right fun _ => exists_congr fun line =>
    and_congr_right fun _ => ?_
  cases lineKind line (statusHintOf h.result) <;> simp [LineKind.rank]

theorem filedFrom_one_iff : FiledFrom parse batch heard i 1 ↔ Filed parse batch heard i .verdict ∨
        Filed parse batch heard i .missingParent := by
  constructor
  · rintro ⟨h, hh, line, hline, hn⟩
    cases hk : lineKind line (statusHintOf h.result) with
    | infra => simp [hk, LineKind.rank] at hn
    | missingParent => exact .inr ⟨h, hh, line, hline, hk⟩
    | verdict => exact .inl ⟨h, hh, line, hline, hk⟩
  · rintro (⟨h, hh, line, hline, hk⟩ | ⟨h, hh, line, hline, hk⟩) <;>
      exact ⟨h, hh, line, hline, by rw [hk]; decide⟩

theorem filed_iff : (∀ k, ¬ Filed parse batch heard i k) ↔ ¬ FiledFrom parse batch heard i 0 := by
  constructor
  · rintro h ⟨x, hx, line, hline, -⟩
    exact h _ ⟨x, hx, line, hline, rfl⟩
  · rintro h k ⟨x, hx, line, hline, -⟩
    exact h ⟨x, hx, line, hline, Nat.zero_le _⟩

section

variable {heard : List Heard} {classes : List TxResultClass} {narrow : Bool} {i : Nat}

section

variable (h : Classified parse batch heard classes narrow) (hi : i < batch.length)
  (hv : ¬ Voted parse batch heard i)
include h hi hv

theorem Classified.rejected_iff :
    classes[i]? = some .rejected ↔ FiledFrom parse batch heard i 2 := by
  rw [h.rejected i hi, and_iff_right hv, filed_verdict_iff]

theorem Classified.requeue_iff :
    classes[i]? = some .requeue ↔ ¬ FiledFrom parse batch heard i 1 := by
  rw [h.requeue i hi, and_iff_right hv, filedFrom_one_iff, not_or]

theorem Classified.eq_missingParent (hr : ¬ FiledFrom parse batch heard i 2)
    (hm : FiledFrom parse batch heard i 1) :
    classes[i]? = some .missingParent := by
  rw [← filed_verdict_iff] at hr
  exact (h.missingParent i hi).mpr ⟨hv, hr, (filedFrom_one_iff.mp hm).resolve_left hr⟩

end

end

theorem Classified.ext {heard' : List Heard} {classes classes' : List TxResultClass}
    {narrow narrow' : Bool} (h : Classified parse batch heard classes narrow)
    (h' : Classified parse batch heard' classes' narrow') (hresults : ∀ P : Submitted → Prop,
      (∃ x ∈ heard, P x.result) ↔ ∃ x ∈ heard', P x.result)
    (hvoted : ∀ i < batch.length, Voted parse batch heard i ↔ Voted parse batch heard' i)
    (hfiled : ∀ i < batch.length, ¬ Voted parse batch heard i → ∀ n ≤ 2,
      (FiledFrom parse batch heard i n ↔ FiledFrom parse batch heard' i n)) :
    classes = classes' ∧ narrow = narrow' := by
  constructor
  · refine ext_getElem? fun i => ?_
    by_cases hi : i < batch.length
    · by_cases hv : Voted parse batch heard i
      · rw [(h.accepted i hi).mpr hv, (h'.accepted i hi).mpr ((hvoted i hi).mp hv)]
      · have hv' : ¬ Voted parse batch heard' i := mt (hvoted i hi).mpr hv
        by_cases hr : FiledFrom parse batch heard i 2
        · rw [(h.rejected_iff hi hv).mpr hr,
            (h'.rejected_iff hi hv').mpr ((hfiled i hi hv 2 le_rfl).mp hr)]
        · have hr' := mt (hfiled i hi hv 2 le_rfl).mpr hr
          by_cases hm : FiledFrom parse batch heard i 1
          · rw [h.eq_missingParent hi hv hr hm,
              h'.eq_missingParent hi hv' hr' ((hfiled i hi hv 1 (by omega)).mp hm)]
          · rw [(h.requeue_iff hi hv).mpr hm,
              (h'.requeue_iff hi hv').mpr (mt (hfiled i hi hv 1 (by omega)).mpr hm)]
    · rw [List.getElem?_eq_none (by rw [h.length]; omega),
        List.getElem?_eq_none (by rw [h'.length]; omega)]
  · rw [Bool.eq_iff_iff, h.narrow, h'.narrow, hresults (Unplaced parse batch),
      hresults fun result => Submitted.isTooLarge result = true]
    refine or_congr_right (and_congr_right fun _ => exists_congr fun i =>
      and_congr_right fun hi => ?_)
    rw [filed_iff, filed_iff, ← hvoted i hi]
    exact and_congr_right fun hv => not_congr (hfiled i hi hv 0 (Nat.zero_le _))

/-- In a chunk of one that no response accepts: what may be filed from a rank on in one order is
filed from that rank on in every order. -/
def Settled (parse : TxParser)
    (batch : List PropagationMsg) (results : List Submitted) : Prop :=
  batch.length = 1 → (∀ result ∈ results, ¬ Accepts parse batch result 0) → ∀ n, (n = 1 ∨ n = 2) →
    (∃ result ∈ results, ∃ slot ∈ slots parse batch result, ∃ line ∈ slot,
      n ≤ (lineKind line (statusHintOf result)).rank) →
    ∃ result ∈ results, ∃ slot ∈ slots parse batch result, ∀ line ∈ slot,
      n ≤ (lineKind line (statusHintOf result)).rank

theorem Hears.filedFrom_iff (h : Hears heard results) (hlen : batch.length ≠ 1) :
    FiledFrom parse batch heard i n ↔ ∃ result ∈ results,
      ∃ line ∈ routed parse (.stored Text) batch result i,
        n ≤ (lineKind line (statusHintOf result)).rank := by
  rw [← h.exists_iff fun result => ∃ line ∈ routed parse (.stored Text) batch
    result i, n ≤ (lineKind line (statusHintOf result)).rank]
  refine exists_congr fun x => and_congr_right fun _ => ?_
  rw [routed_order _ _ hlen x.order (.stored Text)]

theorem Settled.filedFrom {heard' : List Heard} (hsettled : Settled parse batch results)
    (hlen : batch.length = 1) (h : Hears heard results) (h' : Hears heard' results)
    (hblank : ∀ result ∈ results, NonBlank result) (hv : ¬ Voted parse batch heard 0) (hn : n ≤ 2)
    (hfiled : FiledFrom parse batch heard 0 n) :
    FiledFrom parse batch heard' 0 n := by
  obtain ⟨x, hx, hline⟩ := hfiled
  have hresult := h.mem_iff.mp (mem_map_of_mem hx)
  have hmay := (exists_routed_iff hlen (hblank _ hresult) _).1.mp ⟨x.order, hline⟩
  obtain ⟨result, hresult, hmust⟩ : ∃ result ∈ results, ∃ slot ∈ slots parse batch result,
      ∀ line ∈ slot, n ≤ (lineKind line (statusHintOf result)).rank := by
    rcases Nat.eq_zero_or_pos n with rfl | hpos
    · obtain ⟨slot, hslot, -⟩ := hmay
      exact ⟨x.result, hresult, slot, hslot, fun _ _ => Nat.zero_le _⟩
    · refine hsettled hlen (fun result hresult haccepts => hv ?_) n (by omega) ⟨_, hresult, hmay⟩
      exact (h.voted_iff (by omega)).mpr ⟨result, hresult, haccepts⟩
  obtain ⟨x', hx', rfl⟩ := mem_map.mp (h'.mem_iff.mpr hresult)
  exact ⟨x', hx', (exists_routed_iff hlen (hblank _ hresult) _).2.mpr hmust x'.order⟩

/-- The orders of a pass, chosen for each response. -/
def heardWith (order : Submitted → MapOrder Text) (results : List Submitted) : List Heard :=
  results.map fun result => ⟨result, order result, .stored Nat⟩

theorem hears_heardWith (order : Submitted → MapOrder Text) (results : List Submitted) :
    Hears (heardWith order results) results := by
  rw [Hears, heardWith, map_map]
  exact .of_eq (map_id _)

theorem exists_heard_of_not_settled (hlen : batch.length = 1)
    (hblank : ∀ result ∈ results, NonBlank result)
    (hmay : ∃ result ∈ results, ∃ slot ∈ slots parse batch result,
      ∃ line ∈ slot, n ≤ (lineKind line (statusHintOf result)).rank)
    (hnot : ¬ ∃ result ∈ results, ∃ slot ∈ slots parse batch result,
      ∀ line ∈ slot, n ≤ (lineKind line (statusHintOf result)).rank) :
    ∃ order order', FiledFrom parse batch (heardWith order results) 0 n ∧
      ¬ FiledFrom parse batch (heardWith order' results) 0 n := by
  obtain ⟨result, hresult, hslot⟩ := hmay
  obtain ⟨order, hrouted⟩ := (exists_routed_iff hlen (hblank result hresult) _).1.mpr hslot
  have hlow : ∀ result, ∃ order, result ∈ results → ¬ ∃ line ∈ routed parse order batch result 0,
      n ≤ (lineKind line (statusHintOf result)).rank := by
    intro result
    by_cases hresult : result ∈ results
    · obtain ⟨order, horder⟩ := not_forall.mp fun hall => hnot ⟨result, hresult,
        (exists_routed_iff hlen (hblank result hresult) _).2.mp hall⟩
      exact ⟨order, fun _ => horder⟩
    · exact ⟨.stored Text, fun h => absurd h hresult⟩
  choose order' horder' using hlow
  refine ⟨fun _ => order, order', ⟨_, mem_map_of_mem hresult, hrouted⟩, ?_⟩
  rintro ⟨x, hx, hline⟩
  obtain ⟨result, hresult, rfl⟩ := mem_map.mp hx
  exact horder' result hresult hline

end

/-- The classes are those of the votes and the lines; and any two passes over the same responses,
each in its own order, agree on the classes and on the flag exactly if the responses are settled. -/
theorem aggregate_orderFree_iff (parse : TxParser)
    (batch : List PropagationMsg) (responses : List (Nat × Option Text)) :
    (∀ heard reason, Hears heard (responses.map fun r => submitTransactions r.1 r.2) →
      Classified parse batch heard
        (aggregate parse batch heard reason).1
        (aggregate parse batch heard reason).2) ∧
    ((∀ heard heard' reason reason',
      Hears heard (responses.map fun r => submitTransactions r.1 r.2) →
      Hears heard' (responses.map fun r => submitTransactions r.1 r.2) →
      aggregate parse batch heard reason = aggregate parse batch heard' reason') ↔
      Settled parse batch
        (responses.map fun r => submitTransactions r.1 r.2)) := by
  generalize hresults : (responses.map fun r => submitTransactions r.1 r.2) = results
  have hblank : ∀ result ∈ results, NonBlank result := by
    rw [← hresults]
    intro result hresult
    obtain ⟨r, -, rfl⟩ := mem_map.mp hresult
    exact nonBlank_submitTransactions r.1 r.2
  have hclassified : ∀ heard reason, Hears heard results → Classified parse batch heard
        (aggregate parse batch heard reason).1
        (aggregate parse batch heard reason).2 :=
    fun heard reason h => classified_aggregate parse batch (h.nonBlank hblank) reason
  refine ⟨hclassified, fun hsame hlen hno n hn hmay => ?_, fun hsettled => ?_⟩
  · by_contra hnot
    obtain ⟨order, order', hfiled, hfiled'⟩ := exists_heard_of_not_settled hlen hblank hmay hnot
    have h := hears_heardWith order results
    have h' := hears_heardWith order' results
    have hi : 0 < batch.length := by omega
    have hnovote : ∀ heard, Hears heard results → ¬ Voted parse batch heard 0 := by
      intro heard hheard hvoted
      obtain ⟨result, hresult, haccepts⟩ := (hheard.voted_iff hi).mp hvoted
      exact hno result hresult haccepts
    have hc := hclassified _ [] h
    have hc' := hclassified _ [] h'
    rw [hsame _ _ [] [] h h'] at hc
    rcases hn with rfl | rfl
    · exact (hc.requeue_iff hi (hnovote _ h)).mp
        ((hc'.requeue_iff hi (hnovote _ h')).mpr hfiled') hfiled
    · exact hfiled' ((hc'.rejected_iff hi (hnovote _ h')).mp
        ((hc.rejected_iff hi (hnovote _ h)).mpr hfiled))
  · intro heard heard' reason reason' h h'
    have hvoted : ∀ i < batch.length, Voted parse batch heard i ↔ Voted parse batch heard' i :=
      fun i hi => (h.voted_iff hi).trans (h'.voted_iff hi).symm
    refine Prod.ext_iff.mpr ((hclassified heard reason h).ext (hclassified heard' reason' h')
      (fun P => (h.exists_iff P).trans (h'.exists_iff P).symm) hvoted fun i hi hv n hn => ?_)
    by_cases hlen : batch.length = 1
    · obtain rfl : i = 0 := by omega
      exact ⟨hsettled.filedFrom hlen h h' hblank hv hn,
        hsettled.filedFrom hlen h' h hblank (mt (hvoted 0 hi).mpr hv) hn⟩
    · exact (h.filedFrom_iff hlen).trans (h'.filedFrom_iff hlen).symm

/-- A verdict and a missing parent of the same score, both on transactions outside the chunk. -/
def rivalLines : List Text :=
  ["TX_INVALID (31): ".toList ++ List.replicate 64 'a',
    "TX_MISSING_PARENT (34): ".toList ++ List.replicate 64 'b']

/-- One response about one transaction: it is rejected when the range starts with the first line,
and its parent is missing when the range starts with the second. -/
theorem rivalLines_class_by_visit : aggregate sampleParse (sampleBatch.take 1)
        [⟨submitTransactions 400 (some (failureBody rivalLines 1)),
          visitFirst (List.replicate 64 'a'), .stored Nat⟩] [] = ([.rejected], true) ∧
      aggregate sampleParse (sampleBatch.take 1)
        [⟨submitTransactions 400 (some (failureBody rivalLines 1)),
          visitFirst (List.replicate 64 'b'), .stored Nat⟩] [] = ([.missingParent], true) := by
  constructor <;> decide +kernel

end Arcade.Propagation
