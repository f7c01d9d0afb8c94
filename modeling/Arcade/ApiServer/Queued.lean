import Arcade.ApiServer.Published

/-!
No 202 without a queued message.

Any number of requests, on any number of servers, run together with the services that move
rows on. Rows enter the store as RECEIVED or REJECTED, and a handler publishes a transaction
again that it finds at one of these; the others belong to transactions the broker has
accepted. That invariant carries a 202 that rests on a row instead of on a send.
-/

namespace Arcade.ApiServer

open Lib List
open Propagation (Status)
open Store (TxRow TxRows StatusUpdate)

/-! ## What all parties keep -/

/-- What the broker has accepted stays accepted. -/
def Grows (w w' : World) : Prop := ∀ txid, w.Queued txid → w'.Queued txid

/-- A row that a handler would not publish again has a message. -/
def Backed (w : World) : Prop :=
  ∀ txid row, w.rows.lookup txid = some row → shouldRepublishExisting row.status = false →
    w.Queued txid

/-- The other services: they touch only rows of transactions whose message was accepted. -/
def OtherWriters (w w' : World) : Prop :=
  (∀ txid, w'.rows.lookup txid ≠ w.rows.lookup txid → w.Queued txid) ∧ ∀ m ∈ w.queued, m ∈ w'.queued

theorem Grows.refl (w : World) : Grows w w := fun _ h => h

theorem Grows.trans {w₁ w₂ w₃ : World} (h : Grows w₁ w₂) (h' : Grows w₂ w₃) : Grows w₁ w₃ :=
  fun txid hq => h' txid (h txid hq)

variable {w w' : World} {ρ : Type} {txid : String} {row : TxRow} {P : World → Prop} (s : Server)
  {toPublish ps : List ParsedItem}

theorem grows_of_subset (h : ∀ m ∈ w.queued, m ∈ w'.queued) : Grows w w' := by
  rintro txid ⟨m, hm, hid⟩
  exact ⟨m, h m hm, hid⟩

theorem OtherWriters.keeps (hw : Backed w) (h : OtherWriters w w') : Grows w w' ∧ Backed w' := by
  have hgrows := grows_of_subset h.2
  refine ⟨hgrows, fun txid row hrow hst => hgrows txid ?_⟩
  by_cases hsame : w'.rows.lookup txid = w.rows.lookup txid
  · exact hw txid row (hsame ▸ hrow) hst
  · exact h.1 txid hsame

/-! ## What a call does -/

theorem grows_execSend (o : Oracle) (msgs : List KeyValue) (w : World) :
    Grows w (execSend o msgs w).2 := by
  unfold execSend
  split
  · exact grows_of_subset fun m hm => mem_append_left _ hm
  · exact grows_of_subset fun m hm => mem_append_left _ hm

theorem grows_exec (c : Call ρ) (o : Oracle) (w : World) : Grows w (exec o c w).2 := by
  cases c with
  | validateTransaction => exact Grows.refl w
  | checkFinality => exact Grows.refl w
  | getOrInsertStatus =>
    simp only [exec]
    split
    · split <;> exact Grows.refl w
    · exact Grows.refl w
  | updateStatus =>
    simp only [exec]
    split
    · split <;> exact Grows.refl w
    · exact Grows.refl w
  | trackerAdd => exact Grows.refl w
  | queueSubmission =>
    simp only [exec]
    split <;> exact Grows.refl w
  | publish =>
    simp only [exec]
    split <;> exact Grows.refl w
  | send msg => exact grows_execSend o [msg] w
  | sendBatch msgs => exact grows_execSend o msgs w

theorem lookup_getOrInsert {rows : TxRows} {txid' : String} {new : TxRow}
    (h : (getOrInsert rows txid new).2.lookup txid' = some row) :
    rows.lookup txid' = some row ∨ row = new := by
  unfold getOrInsert at h
  split at h
  · exact .inl h
  · rcases GoMap.of_lookup_insert h with ⟨-, rfl⟩ | ⟨-, h⟩
    · exact .inr rfl
    · exact .inl h

theorem lookup_update {rows : TxRows} {txid' : String} {u : StatusUpdate} {status : Status}
    (hu : u.status = some status) (h : (update rows txid u).2.lookup txid' = some row) :
    rows.lookup txid' = some row ∨ row.status = status := by
  unfold update at h
  split at h
  · exact .inl h
  · split at h
    · exact .inl h
    · rename_i old _ new hnew
      rcases GoMap.of_lookup_insert h with ⟨-, rfl⟩ | ⟨-, h⟩
      · unfold Store.updateStatus at hnew
        split at hnew
        · cases hnew
          exact .inr (by simp [Store.mergeStatus, hu])
        · cases hnew
      · exact .inl h

/-- A handler leaves the row as it is, or at a status it would publish again. -/
theorem lookup_exec {c : Call ρ} (hc : Intake ρ c) (o : Oracle) (w : World)
    (h : (exec o c w).2.rows.lookup txid = some row) :
    w.rows.lookup txid = some row ∨ shouldRepublishExisting row.status = true := by
  cases c with
  | validateTransaction => exact .inl h
  | checkFinality => exact .inl h
  | getOrInsertStatus id new =>
    have hnew : (getOrInsert w.rows id new).2.lookup txid = some row →
        w.rows.lookup txid = some row ∨ shouldRepublishExisting row.status = true :=
      fun h => (lookup_getOrInsert h).imp_right fun heq => by rw [heq]; exact hc
    simp only [exec] at h
    split at h
    · split at h
      · exact hnew h
      · exact .inl h
    · exact hnew h
  | updateStatus id u =>
    have hnew : (update w.rows id u).2.lookup txid = some row →
        w.rows.lookup txid = some row ∨ shouldRepublishExisting row.status = true :=
      fun h => (lookup_update hc h).imp_right fun heq => by rw [heq]; rfl
    simp only [exec] at h
    split at h
    · split at h
      · exact hnew h
      · exact .inl h
    · exact hnew h
  | trackerAdd => exact .inl h
  | queueSubmission =>
    simp only [exec] at h
    split at h <;> exact .inl h
  | publish =>
    simp only [exec] at h
    split at h <;> exact .inl h
  | send => exact hc.elim
  | sendBatch => exact hc.elim

theorem backed_exec {c : Call ρ} (hc : Intake ρ c) (o : Oracle) (hw : Backed w) :
    Backed (exec o c w).2 := by
  intro txid row hrow hst
  rcases lookup_exec hc o w hrow with hold | hpub
  · exact grows_exec c o w txid (hw txid row hold hst)
  · rw [hst] at hpub
    cases hpub

theorem backed_execSend (o : Oracle) (msgs : List KeyValue) (hw : Backed w) :
    Backed (execSend o msgs w).2 := by
  intro txid row hrow hst
  refine grows_execSend o msgs w txid (hw txid row ?_ hst)
  unfold execSend at hrow
  split at hrow <;> exact hrow

theorem queued_execSend {o : Oracle} {msgs : List KeyValue} (h : (execSend o msgs w).1 = none)
    {m : KeyValue} (hm : m ∈ msgs) :
    (execSend o msgs w).2.Queued m.value.txid := by
  unfold execSend at h ⊢
  split at h
  · exact ⟨m, mem_append_right _ hm, rfl⟩
  · cases h

/-! ## One handler among the others -/

/-- On every course of the program among the others, `Q` holds at the end. -/
abbrev Ends {α : Type} (Q : α → World → Prop) (p : Program α) (w : World) : Prop :=
  Always (env.among Grows Backed) (fun _ => Backed) Q p w

theorem ends_intake {α : Type} (hP : ∀ w w', P w → Grows w w' → P w') {p : Program α}
    (hp : p.Makes Intake) (hw : P w) : Ends (fun _ => P) p w :=
  among_keeps (fun _ c o w hc hw _ => ⟨grows_exec c o w, backed_exec hc o hw⟩) hP hp hw

/-- A 202 means that the transactions are queued. -/
def Promises (txids : List String) (response : Response) (w : World) : Prop :=
  response.code = 202 → ∀ txid ∈ txids, w.Queued txid

theorem Promises.grows {txids : List String} {response : Response} (h : Promises txids response w)
    (hw : Grows w w') : Promises txids response w' :=
  fun h202 txid htxid => hw txid (h h202 txid htxid)

theorem promises_respondSend {txids : List String} {body : Body} {err : Option SendError}
    (h : err = none → ∀ txid ∈ txids, w.Queued txid) :
    Promises txids (respondSend body err) w := by
  intro h202
  cases err with
  | none => exact h rfl
  | some err => cases err <;> cases h202

theorem promises_submitError (txids : List String) (txid reason : String) (w : World) :
    Promises txids (.submitError txid reason) w := nofun

theorem ends_rejectAtIntake (txid reason : String) (opts : SubmitOptions) (txids : List String)
    (w : World) :
    Ends (Promises txids) (do
      rejectAtIntake s txid reason opts
      pure (.submitError txid reason)) w :=
  (ends_intake (P := fun _ => True) (fun _ _ _ _ => trivial)
    (makes_rejectAtIntake s txid reason opts) trivial).bind fun _ w _ =>
      promises_submitError txids txid reason w

variable (opts : SubmitOptions)

theorem ends_publishTransaction (tx : Transaction) (rawTx : List UInt8) (w : World) :
    Ends (Promises [tx.txid]) (publishTransaction s opts tx rawTx) w := by
  have htrue : ∀ w w' : World, True → Grows w w' → True := fun _ _ _ _ => trivial
  refine (ends_intake htrue (makes_track ..) trivial).bind fun _ w _ => ?_
  refine (ends_intake htrue (makes_recordSubmission ..) trivial).bind fun _ w _ => ?_
  rintro ⟨w', o⟩ ⟨-, hw', -⟩
  refine ⟨backed_execSend o _ hw', promises_respondSend fun hnone txid htxid => ?_⟩
  obtain rfl := mem_singleton.mp htxid
  exact queued_execSend hnone (mem_singleton.mpr rfl)

theorem ends_dedupCAS (txid : String) (rawTx : List UInt8) (hP : ∀ w w', P w → Grows w w' → P w')
    (hw : P w) :
    Ends (fun reply w => P w ∧ ∀ row, reply = .existing row →
      shouldRepublishExisting row.status = false → w.Queued txid) (dedupCAS s txid rawTx) w := by
  unfold dedupCAS
  split
  · rintro ⟨w', o⟩ ⟨hgrows, hw', -⟩
    have hc : Intake _ (.getOrInsertStatus txid (receivedRow rawTx)) := rfl
    refine ⟨backed_exec hc o hw', hP _ _ (hP _ _ hw hgrows) (grows_exec _ o w'), ?_⟩
    intro row hreply hst
    refine grows_exec (.getOrInsertStatus txid (receivedRow rawTx)) o w' txid
      (hw' txid row ?_ hst)
    change (exec o (.getOrInsertStatus txid (receivedRow rawTx)) w').1 = .existing row at hreply
    simp only [exec] at hreply
    split at hreply
    · cases hreply
    · unfold getOrInsert at hreply
      split at hreply
      · rename_i hrow
        cases hreply
        exact hrow
      · cases hreply
  · exact ⟨hw, nofun⟩

theorem ends_submitTransaction (tx : Transaction) (rawTx : List UInt8) (w : World) :
    Ends (Promises [tx.txid]) (submitTransaction s opts tx rawTx) w := by
  have htrue : ∀ w w' : World, True → Grows w w' → True := fun _ _ _ _ => trivial
  refine (ends_intake htrue (makes_validate ..) trivial).bind fun verdict w _ => ?_
  cases verdict with
  | some reason => exact ends_rejectAtIntake s tx.txid reason opts _ w
  | none =>
    refine (ends_intake htrue (makes_checkFinality tx) trivial).bind fun verdict w _ => ?_
    cases verdict with
    | some reason => exact promises_submitError _ tx.txid reason w
    | none =>
      refine (ends_dedupCAS s tx.txid rawTx htrue trivial).bind fun reply w hreply => ?_
      cases reply with
      | failed => exact ends_publishTransaction s opts tx rawTx w
      | inserted => exact ends_publishTransaction s opts tx rawTx w
      | existing row =>
        dsimp only
        split
        · exact ends_publishTransaction s opts tx rawTx w
        · rename_i hst
          have hq : w.Queued tx.txid := hreply.2 row rfl (Bool.eq_false_iff.mpr hst)
          have hstable : ∀ w w' : World, w.Queued tx.txid → Grows w w' → w'.Queued tx.txid :=
            fun _ _ h hgrows => hgrows _ h
          refine (ends_intake hstable (makes_track ..) hq).bind fun _ w hq => ?_
          refine (ends_intake hstable (makes_recordSubmission ..) hq).bind fun _ w hq _ => ?_
          intro txid htxid
          obtain rfl := mem_singleton.mp htxid
          exact hq

/-! ## The batch -/

/-- Each transaction of the body is to be published or already queued. -/
def Covered (ps toPublish : List ParsedItem) (w : World) : Prop :=
  ∀ p ∈ ps, p ∈ toPublish ∨ w.Queued p.txid

theorem Covered.grows (h : Covered ps toPublish w) (hw : Grows w w') : Covered ps toPublish w' :=
  fun p hp => (h p hp).imp_right (hw p.txid)

theorem Covered.cons (p : ParsedItem) (h : Covered ps toPublish w) :
    Covered (p :: ps) (p :: toPublish) w := by
  intro q hq
  rcases mem_cons.mp hq with rfl | hq
  · exact .inl (mem_cons_self ..)
  · exact (h q hq).imp_left (mem_cons_of_mem _)

theorem Covered.cons_queued {p : ParsedItem} (h : Covered ps toPublish w) (hq : w.Queued p.txid) :
    Covered (p :: ps) toPublish w := by
  intro q hmem
  rcases mem_cons.mp hmem with rfl | hmem
  · exact .inr hq
  · exact h q hmem

theorem ends_dedup (ps : List ParsedItem) (hP : ∀ w w', P w → Grows w w' → P w') (hw : P w) :
    Ends (fun out w => P w ∧ Covered ps out.1 w) (dedup s opts ps) w := by
  induction ps generalizing P w with
  | nil =>
    refine ⟨hw, ?_⟩
    intro p hp
    cases hp
  | cons p ps ih =>
    refine (ends_dedupCAS s p.txid p.raw hP hw).bind fun reply w hreply => ?_
    have hpublish : Ends (fun out w => P w ∧ Covered (p :: ps) out.1 w)
        (dedup s opts ps >>= fun out => pure (p :: out.1, out.2)) w :=
      (ih hP hreply.1).bind fun out w h => ⟨h.1, h.2.cons p⟩
    cases reply with
    | failed => exact hpublish
    | inserted => exact hpublish
    | existing row =>
      dsimp only
      split
      · exact hpublish
      · rename_i hst
        -- From here on the row's message is one more fact that the others keep.
        have hq : P w ∧ w.Queued p.txid := ⟨hreply.1, hreply.2 row rfl (Bool.eq_false_iff.mpr hst)⟩
        have hstable : ∀ w w', P w ∧ w.Queued p.txid → Grows w w' → P w' ∧ w'.Queued p.txid :=
          fun w w' h hgrows => ⟨hP w w' h.1 hgrows, hgrows _ h.2⟩
        refine (ends_intake hstable (makes_track ..) hq).bind fun _ w hq => ?_
        refine (ends_intake hstable (makes_recordSubmission ..) hq).bind fun _ w hq => ?_
        exact (ih hstable hq).bind fun out w h => ⟨h.1.1, h.2.cons_queued h.1.2⟩

theorem ends_publishBatch {parsed : List ParsedItem} (duplicates : Nat)
    (hw : Covered parsed toPublish w) :
    Ends (Promises (parsed.map (·.txid))) (publishBatch s opts parsed toPublish duplicates) w := by
  have hstable : ∀ w w', Covered parsed toPublish w → Grows w w' → Covered parsed toPublish w' :=
    fun _ _ h => h.grows
  refine (ends_intake hstable (Prog.makes_each fun _ _ => makes_track ..) hw).bind
    fun _ w hw => ?_
  refine (ends_intake hstable (Prog.makes_each fun _ _ => makes_recordSubmission ..) hw).bind
    fun _ w hw => ?_
  split
  · rename_i hnil
    intro _ txid htxid
    obtain ⟨p, hp, rfl⟩ := mem_map.mp htxid
    rcases hw p hp with hp | hq
    · rw [hnil] at hp
      cases hp
    · exact hq
  · rintro ⟨w', o⟩ ⟨hgrows, hw', -⟩
    refine ⟨backed_execSend o _ hw', promises_respondSend fun hnone txid htxid => ?_⟩
    obtain ⟨p, hp, rfl⟩ := mem_map.mp htxid
    rcases hw p hp with hp | hq
    · exact queued_execSend hnone (mem_map_of_mem hp)
    · exact grows_execSend o _ w' _ (hgrows _ hq)

theorem ends_submitTransactions (parsed : List ParsedItem) (w : World) :
    Ends (Promises (parsed.map (·.txid))) (submitTransactions s opts parsed) w := by
  have htrue : ∀ w w' : World, True → Grows w w' → True := fun _ _ _ _ => trivial
  refine (ends_intake htrue (makes_firstInvalid s parsed) trivial).bind fun invalid w _ => ?_
  cases invalid with
  | some invalid => exact ends_rejectAtIntake s invalid.1 invalid.2 opts _ w
  | none =>
    refine (ends_intake htrue (makes_firstNonFinal parsed) trivial).bind fun nonFinal w _ => ?_
    cases nonFinal with
    | some nonFinal => exact promises_submitError _ nonFinal.1 nonFinal.2 w
    | none =>
      exact (ends_dedup s opts parsed htrue trivial).bind fun out w h =>
        ends_publishBatch s opts out.2 h.2

/-! ## All requests together -/

section Requests

variable (newTransactionFromStream : List UInt8 → Option (Transaction × Nat))

/-- A `POST /tx` request with the txid it is about. -/
def serveTransaction (s : Server) (r : Request) : Program (List String × Response) := do
  let response ← handleSubmitTransaction newTransactionFromStream s r
  pure (match readTransaction newTransactionFromStream r with
    | .ok (tx, _) => ([tx.txid], response)
    | .error _ => ([], response))

/-- A `POST /txs` request with the txids it is about. -/
def serveTransactions (s : Server) (r : Request) : Program (List String × Response) := do
  let response ← handleSubmitTransactions newTransactionFromStream s r
  pure (match readTransactions newTransactionFromStream r with
    | .ok parsed => (parsed.map (·.txid), response)
    | .error _ => ([], response))

/-- The requests that may come in, at any of the servers. -/
inductive Requested : Program (List String × Response) → Prop where
  | transaction (s : Server) (r : Request) :
    Requested (serveTransaction newTransactionFromStream s r)
  | transactions (s : Server) (r : Request) :
    Requested (serveTransactions newTransactionFromStream s r)

variable {newTransactionFromStream}

theorem Requested.ends {p : Program (List String × Response)}
    (h : Requested newTransactionFromStream p) (w : World) :
    Ends (fun out => Promises out.1 out.2) p w := by
  cases h with
  | transaction s r =>
    unfold serveTransaction handleSubmitTransaction
    cases readTransaction newTransactionFromStream r with
    | error response => exact fun _ => nofun
    | ok read => exact (ends_submitTransaction s r.opts read.1 read.2 w).bind fun _ _ h => h
  | transactions s r =>
    unfold serveTransactions handleSubmitTransactions
    cases readTransactions newTransactionFromStream r with
    | error response => exact fun _ => nofun
    | ok parsed => exact (ends_submitTransactions s r.opts parsed w).bind fun _ _ h => h

theorem intake_discipline : Pool.Discipline env (Requested newTransactionFromStream) OtherWriters
    Grows Backed (fun out : List String × Response => Promises out.1 out.2) where
  refl := Grows.refl
  trans _ _ _ := Grows.trans
  outlasts _ _ _ := Promises.grows
  call _ c o w _ := grows_exec c o w
  other _ _ hw h := h.keeps hw
  enter _ hp w _ := hp.ends w

/-- Whatever requests run together, from an empty store on: where one is answered 202, the
broker has accepted a message for each of its transactions. -/
theorem accepted_queued {w₀ w : World} (hempty : w₀.rows = ∅)
    {requests : List (Program (List String × Response))}
    (hrun : Pool.Reaches env (Requested newTransactionFromStream) OtherWriters ([], w₀)
      (requests, w))
    {txids : List String} {response : Response} (hdone : .done (txids, response) ∈ requests)
    (h202 : response.code = 202) : ∀ txid ∈ txids, w.Queued txid := by
  have hstart : Pool.Holds env Grows Backed
      (fun out : List String × Response => Promises out.1 out.2) ([], w₀) := by
    refine ⟨fun txid row hrow => ?_, nofun⟩
    rw [hempty] at hrow
    simp at hrow
  exact (hrun.holds intake_discipline hstart).2 _ hdone h202

end Requests

/-! Two requests for one transaction. -/

/-- The first request ends, with the row and the message made. -/
def submittedOnce : World :=
  ((serveTransaction readByte fullServer (octets [1])).play env (List.replicate 5 fine) emptyWorld).2

def acceptedOnce : World :=
  { submittedOnce with
    rows := submittedOnce.rows.insert "parent" { receivedRow [1] with status := .acceptedByNetwork } }

theorem otherWriters_acceptedOnce : OtherWriters submittedOnce acceptedOnce := by
  refine ⟨fun txid hne => ?_, fun m hm => hm⟩
  obtain rfl : txid = "parent" := by
    by_contra hother
    exact hne (AList.lookup_insert_ne hother)
  exact ⟨⟨"parent", ⟨"parent", [1], []⟩⟩, by decide +kernel, rfl⟩

/-- The second request publishes nothing, and its 202 rests on the row of the first. -/
theorem accepted_queued_parent : ∃ w,
    Pool.Reaches env (Requested readByte) OtherWriters ([], emptyWorld)
      ([.done (["parent"], .accepted (.submitted "parent" .received)),
        .done (["parent"], .accepted (.submitted "parent" .acceptedByNetwork))], w) ∧
    w.queued = submittedOnce.queued ∧ ∀ txid ∈ ["parent"], w.Queued txid := by
  have hfine : ∀ n, ∀ o ∈ List.replicate n fine, ∀ (w : World) (ρ : Type) (c : Call ρ),
      env.ok w c o := fun _ _ _ _ _ _ => trivial
  have hfirst : Pool.Reaches env (Requested readByte) OtherWriters ([], emptyWorld)
      ([.done (["parent"], .accepted (.submitted "parent" .received))], submittedOnce) :=
    .head (.enter (.transaction fullServer (octets [1])))
      (Pool.reaches_play (i := 0) (hfine 5) rfl rfl)
  have hrun : Pool.Reaches env (Requested readByte) OtherWriters ([], emptyWorld)
      ([.done (["parent"], .accepted (.submitted "parent" .received)),
        .done (["parent"], .accepted (.submitted "parent" .acceptedByNetwork))], _) :=
    (hfirst.tail (.other otherWriters_acceptedOnce)).trans
      (.head (.enter (.transaction fullServer (octets [1])))
        (Pool.reaches_play (i := 1) (hfine 4) rfl rfl))
  exact ⟨_, hrun, rfl, accepted_queued rfl hrun (mem_cons_of_mem _ mem_cons_self) rfl⟩

end Arcade.ApiServer
