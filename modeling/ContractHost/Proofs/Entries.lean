import Mathlib.Data.List.Forall2
import ContractHost.Proofs.Extent
import ContractHost.Tree.NodeTree

/-!
# What is logged

A `log` that is carried out enters what its arguments point at in the memory of that moment (`LogEntry.Spelled`), and
nothing else that is invoked changes the log, whether or not it is carried out.  So the final report has one entry for
each such `log`, in the order of the turns (`log_complete`).

No entry has more than four topics.  A `log` whose number of topics, read with a sign, is not among 0 to 4 traps for
its argument, whatever the others are: it takes no gas, however little there is, and makes no entry.
-/

namespace ContractHost

/-- The bytes stand in the memory at the offset. -/
def Memory.Holds (M : Memory) (offset : UInt32) (b : Bytes) : Prop :=
  M.Fits offset.toNat b.length ∧ (M.toList.drop offset.toNat).take b.length = b

/-- The lower half of an argument. -/
def Turn.arg (t : Turn) (i : Nat) : UInt32 := (t.args.getD i 0).toUInt32

/-- The entry that a turn asks for: as many bytes of data as its arguments say, and as many topics, each as it stands
in the memory where the arguments point.  If there is no data, it does not matter where it would be. -/
structure LogEntry.Spelled (t : Turn) (entry : LogEntry) : Prop where
  length_data : entry.data.length = (t.arg 1).toNat
  data : t.arg 1 ≠ 0 → t.memory.Holds (t.arg 0) entry.data
  length_topics : entry.topics.length = (t.arg 2).toNat
  topics : ∀ i topic, entry.topics[i]? = some topic → t.memory.Holds (t.arg (3 + i)) topic.toList

variable {τ κ : Type}

/-- Whether an entry is made in the passage. -/
def Passage.enters (p : Passage τ κ) : Bool := p.turn.op = .log && p.answer.isOk

/-! ### What is read -/

namespace Memory

variable {M : Memory} {offset : UInt32}

theorem holds_of_read? {n : Nat} {b : Bytes} (h : M.read? offset n = some b) : M.Holds offset b := by
  obtain rfl := length_of_read? h
  rw [read?_eq] at h
  split at h
  · rename_i hfits
    exact ⟨hfits, Option.some.inj h⟩
  · cases h

theorem holds_of_readVector? {n : Nat} {v : Vector UInt8 n} (h : M.readVector? n offset = some v) :
    M.Holds offset v.toList := by
  obtain ⟨b, hread, hv⟩ := Option.bind_eq_some_iff.1 h
  rw [Bytes.toVector?_eq_some_iff.1 hv]
  exact holds_of_read? hread

end Memory

namespace Host

variable {f g : Frame τ κ}

theorem of_mapM_readWord {offsets : List UInt32} {words : List Word} (h : offsets.mapM readWord f = .ok words g) :
    List.Forall₂ (fun offset word => f.memory.Holds offset word.toList) offsets words ∧ g = f := by
  induction offsets generalizing words g with
  | nil =>
    cases h
    exact ⟨.nil, rfl⟩
  | cons offset offsets ih =>
    rw [List.mapM_cons] at h
    obtain ⟨word, k, hword, hnext⟩ := of_bind_ok h
    obtain ⟨hread, rfl⟩ := of_view_ok hword
    obtain ⟨rest, l, hrest, hlast⟩ := of_bind_ok hnext
    obtain ⟨hall, rfl⟩ := ih hrest
    cases hlast
    exact ⟨.cons (Memory.holds_of_readVector? hread) hall, rfl⟩

/-- An entry is put behind those that are there. -/
private theorem logs_of_log {entry : LogEntry} {a : Unit} (h : log entry f = .ok a g) :
    g.progress.logs = f.progress.logs ++ [entry] := by
  have hstep := of_advance_ok h
  by_cases hrun : f.progress.status = .running
  · rw [Progress.log_of_running hrun] at hstep
    rw [← Except.ok.inj hstep]
  · rw [Progress.log, Progress.ensureRunning_of_ne hrun] at hstep
    cases hstep

theorem of_record {data length topics : UInt32} {offsets : List UInt32} {a : Unit}
    (h : record data length topics offsets f = .ok a g) :
    topics.toNat ≤ 4 ∧ ∃ entry : LogEntry, g.progress.logs = f.progress.logs ++ [entry] ∧
      entry.data.length = length.toNat ∧ (length ≠ 0 → f.memory.Holds data entry.data) ∧
      List.Forall₂ (fun offset topic => f.memory.Holds offset topic.toList) (offsets.take topics.toNat)
        entry.topics := by
  unfold record at h
  split at h
  · cases h
  · rename_i hfew
    have hfour : topics.toNat ≤ 4 := by
      have hle := UInt64.le_iff_toNat_le.1 (UInt64.not_lt.1 hfew)
      rw [UInt32.toNat_toUInt64] at hle
      exact hle
    obtain ⟨_, k, hcharge, hrest⟩ := of_bind_ok (x := charge (Gas.logCost length.toUInt64 topics)) h
    obtain ⟨-, rfl⟩ := of_charge_ok hcharge
    -- What is left reads the topics and makes the entry, whichever way the data was come by.
    have henter (b : Bytes)
        (hb : (do let topics ← (offsets.take topics.toNat).mapM readWord; log ⟨b, topics⟩)
          (f.spend (Gas.logCost length.toUInt64 topics).toNat) = .ok a g) :
        ∃ entry : LogEntry, g.progress.logs = f.progress.logs ++ [entry] ∧ entry.data = b ∧
          List.Forall₂ (fun offset topic => f.memory.Holds offset topic.toList) (offsets.take topics.toNat)
            entry.topics := by
      obtain ⟨words, k, hwords, hlog⟩ := of_bind_ok hb
      obtain ⟨hall, rfl⟩ := of_mapM_readWord hwords
      have hlogs := logs_of_log hlog
      exact ⟨⟨b, words⟩, hlogs, rfl, hall⟩
    dsimp only at hrest
    refine ⟨hfour, ?_⟩
    split at hrest
    · rename_i hzero
      obtain ⟨entry, hlogs, hdata, htopics⟩ := henter [] hrest
      exact ⟨entry, hlogs, by rw [hdata, hzero]; rfl, fun hne => absurd hzero hne, htopics⟩
    · obtain ⟨b, k, hread, hnext⟩ := of_bind_ok (x := readBytes data length) hrest
      obtain ⟨hb, rfl⟩ := of_view_ok hread
      obtain ⟨entry, hlogs, rfl, htopics⟩ := henter b hnext
      exact ⟨entry, hlogs, Memory.length_of_read? hb, fun _ => Memory.holds_of_read? hb, htopics⟩

end Host

/-! ### What leaves the log as it is -/

theorem Progress.logs_of_halt {p q : Progress} {output : Option Bytes} (h : p.halt output = .ok q) :
    q.logs = p.logs := by
  by_cases hrun : p.status = .running
  · rw [halt_of_running hrun] at h
    rw [← Except.ok.inj h]
  · rw [halt, ensureRunning_of_ne hrun] at h
    cases h

theorem Progress.logs_of_selfDestruct {p q : Progress} {beneficiary : Address} (h : p.selfDestruct beneficiary = .ok q) :
    q.logs = p.logs := by
  by_cases hrun : p.status = .running
  · rw [selfDestruct_of_running hrun] at h
    rw [← Except.ok.inj h]
  · rw [selfDestruct, ensureRunning_of_ne hrun] at h
    cases h

theorem Progress.logs_trap (p : Progress) (why : Trap) : (p.trap why).logs = p.logs := by
  unfold trap
  split <;> rfl

theorem Request.ne_log_of_commits {m : Message} {M : Memory} {r : Request} {c : Commit} (hc : r.Commits m M c)
    (hop : r.operation ≠ .log) (entry : LogEntry) : c ≠ .log entry := by
  rintro rfl
  cases r with
  | log _ _ _ _ _ _ _ => exact hop rfl
  | _ => simp [Commits] at hc

namespace Host

section

variable [Tree τ]

/-- Only one of the acts makes an entry. -/
theorem logs_of_run {c : Commit} (hc : ∀ entry, c ≠ .log entry) {f g : Frame τ κ} (h : c.run f = .ok () g) :
    g.progress.logs = f.progress.logs := by
  have hstored (halters : c.Alters) : g.progress.logs = f.progress.logs := by
    have hprogress := progress_of_alters halters f
    rw [after_ok h] at hprogress
    rw [hprogress]
  cases c with
  | log entry => exact absurd rfl (hc entry)
  | write offset b =>
    have hwrite : edit (·.write? offset b) f = .ok () g := h
    rw [eq_of_edit_ok hwrite]
  | fill offset length b =>
    have hwrite : edit (·.writePadded? offset length b) f = .ok () g := h
    rw [eq_of_edit_ok hwrite]
  | halt output =>
    have hhalt : advance (·.halt output) f = .ok () g := h
    exact Progress.logs_of_halt (of_advance_ok hhalt)
  | destroy beneficiary =>
    obtain ⟨_, f', hrefund, hdestroy⟩ := of_bind_ok h
    obtain rfl := of_refund_ok hrefund
    have hlogs := Progress.logs_of_selfDestruct (of_advance_ok hdestroy)
    exact hlogs
  | put _ _ | remove _ | clear _ => exact hstored trivial

end

variable [Tree τ] [Kernel κ] {m : Message} {op : Operation} {args : List UInt64} {f g : Frame τ κ}

theorem logs_of_error {e : OperationError} (h : invoke m op args f = .error e g) :
    g.progress.logs = f.progress.logs := by
  rcases invoke_cases m op args f with ⟨_, hinvoke⟩ | ⟨hrun, -⟩
  · rw [hinvoke] at h
    cases h
    rfl
  · rcases of_invoke_error hrun h with ⟨-, rfl⟩ | ⟨r, k, -, hasked, ⟨why, -, rfl⟩ | ⟨c, text, -, halters, -, hrefused⟩⟩
    · rfl
    · rw [← hasked.progress]
      exact Progress.logs_trap k.progress why
    · have hprogress := progress_of_alters halters k
      rw [after_error hrefused, hasked.progress] at hprogress
      rw [hprogress]

theorem logs_of_ne_log {a : Option UInt64} (hop : op ≠ .log) (h : invoke m op args f = .ok a g) :
    g.progress.logs = f.progress.logs := by
  have hrun := running_of_invoke_ok h
  obtain ⟨r, hr, -⟩ := of_invoke_ok h
  have hrop : r.operation ≠ .log := fun heq => hop ((Request.operation_of_ofArgs? hr).symm.trans heq)
  obtain ⟨k, hasked, hend, -⟩ := invoke_ending (m := m) hrun hr
  rw [← hasked.progress]
  cases hend with
  | done _ h' =>
    rw [h'] at h
    cases h
    rfl
  | commit c _ _ hc hcommit h' _ =>
    rw [h'] at h
    cases h
    exact logs_of_run (Request.ne_log_of_commits hc hrop) hcommit
  | trap _ h' _ | refuse _ _ _ _ _ _ h' _ =>
    rw [h'] at h
    cases h

/-! ### What is entered -/

omit [Tree τ] [Kernel κ] in
private theorem exists_args {t : Turn} {r : Request} (h : Request.ofArgs? .log t.args = some r) :
    r = .log (t.arg 0) (t.arg 1) (t.arg 2) (t.arg 3) (t.arg 4) (t.arg 5) (t.arg 6) := by
  obtain ⟨M, op, args⟩ := t
  simp only [Request.ofArgs?] at h
  split at h
  · cases h
    rfl
  · cases h

/-- A `log` that is carried out makes the entry that its arguments spell. -/
theorem logs_of_log_ok {t : Turn} {a : Option UInt64}
    (h : invoke m .log t.args { f with memory := t.memory } = .ok a g) :
    ∃ entry : LogEntry, g.progress.logs = f.progress.logs ++ [entry] ∧ entry.Spelled t ∧ entry.topics.length ≤ 4 := by
  obtain ⟨r, hr, hserve⟩ := of_invoke_ok h
  obtain rfl := exists_args hr
  obtain ⟨_, k, hrecord, hsilent⟩ := of_bind_ok hserve
  cases hsilent
  obtain ⟨hfew, entry, hlogs, hlength, hdata, htopics⟩ := of_record hrecord
  have hcount : entry.topics.length = (t.arg 2).toNat := by
    rw [← htopics.length_eq, List.length_take]
    exact Nat.min_eq_left hfew
  refine ⟨entry, hlogs, ⟨hlength, hdata, hcount, fun i topic htopic => ?_⟩, hcount ▸ hfew⟩
  obtain ⟨hi, rfl⟩ := List.getElem?_eq_some_iff.1 htopic
  have hholds := (List.forall₂_iff_get.1 htopics).2 i (htopics.length_eq ▸ hi) hi
  simp only [List.get_eq_getElem, List.getElem_take] at hholds
  match i, hi with
  | 0, _ | 1, _ | 2, _ | 3, _ => exact hholds
  | i + 4, hi => omega

/-- A turn makes the entry that it asks for if it is a `log` that is carried out, and no entry otherwise. -/
theorem logs_turn (m : Message) (f : Frame τ κ) (t : Turn) :
    ∃ entries : List LogEntry, (turn m f t).2.progress.logs = f.progress.logs ++ entries ∧
      List.Forall₂ (fun p entry => entry.Spelled p.turn ∧ entry.topics.length ≤ 4)
        ([passage m f t].filter Passage.enters) entries := by
  cases hinvoke : invoke m t.op t.args { f with memory := t.memory } with
  | ok a g =>
    have hturn := turn_of_ok hinvoke
    by_cases hop : t.op = .log
    · have henters : (passage m f t).enters = true := by simp [Passage.enters, passage, hturn, hop, Except.isOk, Except.toBool]
      rw [hop] at hinvoke
      obtain ⟨entry, hlogs, hspelled⟩ := logs_of_log_ok hinvoke
      rw [hturn, List.filter_cons_of_pos henters]
      exact ⟨[entry], hlogs, .cons hspelled .nil⟩
    · have henters : (passage m f t).enters ≠ true := by simp [Passage.enters, passage, hop]
      rw [hturn, List.filter_cons_of_neg henters]
      exact ⟨[], (logs_of_ne_log hop hinvoke).trans (List.append_nil _).symm, .nil⟩
  | error e g =>
    have hturn := turn_of_error hinvoke
    have henters : (passage m f t).enters ≠ true := by simp [Passage.enters, passage, hturn, Except.isOk, Except.toBool]
    rw [hturn, List.filter_cons_of_neg henters]
    exact ⟨[], (logs_of_error hinvoke).trans (List.append_nil _).symm, .nil⟩

/-- The entries of a run are those of its turns. -/
theorem logs_play (m : Message) (f : Frame τ κ) (turns : List Turn) :
    ∃ entries : List LogEntry, (play m f turns).2.progress.logs = f.progress.logs ++ entries ∧
      List.Forall₂ (fun p entry => entry.Spelled p.turn ∧ entry.topics.length ≤ 4)
        ((passages m f turns).filter Passage.enters) entries := by
  induction turns generalizing f with
  | nil => exact ⟨[], (List.append_nil _).symm, .nil⟩
  | cons t turns ih =>
    obtain ⟨entries, hlogs, hentries⟩ := logs_turn m f t
    obtain ⟨rest, hlast, hrest⟩ := ih (turn m f t).2
    refine ⟨entries ++ rest, ?_, ?_⟩
    · rw [← List.append_assoc, ← hlogs]
      exact hlast
    · rw [passages, ← List.singleton_append, List.filter_append]
      exact List.rel_append hentries hrest

/-! ### Too many topics -/

omit [Tree τ] [Kernel κ] in
/-- A number of topics that is negative or more than four is more than four when it is read without a sign. -/
private theorem few_of_toInt {n : UInt32} (h : n.toInt32.toInt < 0 ∨ 4 < n.toInt32.toInt) :
    Gas.maxLogTopics < n.toUInt64 := by
  have hlt := n.toBitVec.isLt
  have hbits : n.toNat = n.toBitVec.toNat := rfl
  have hint : n.toInt32.toInt = n.toBitVec.toInt := rfl
  have hcond := BitVec.toInt_eq_toNat_cond n.toBitVec
  have hmax : Gas.maxLogTopics.toNat = 4 := rfl
  rw [UInt64.lt_iff_toNat_lt, UInt32.toNat_toUInt64]
  split at hcond <;> omega

/-- A `log` with such a number of topics is refused before anything is paid. -/
theorem invoke_log_of_many (hrun : f.progress.status = .running) (hlength : args.length = Operation.log.params.length)
    (hcount : (args.getD 2 0).toUInt32.toInt32.toInt < 0 ∨ 4 < (args.getD 2 0).toUInt32.toInt32.toInt) :
    invoke m .log args f = .error (.trap .invalidArgument) (f.trapped .invalidArgument) := by
  obtain ⟨r, hr⟩ := Request.exists_ofArgs? hlength
  obtain rfl := exists_args (t := ⟨f.memory, .log, args⟩) hr
  have hmany := few_of_toInt hcount
  have hfree : charge (Operation.cost .log) f = .ok () f := by
    rw [charge_of_le (Nat.zero_le _)]
    exact congrArg (EStateM.Result.ok ()) f.spend_zero
  refine (invoke_eq hrun hr).trans (trapping_trap ((bind_ok hfree _).trans ?_))
  refine bind_error ?_ _
  unfold record
  rw [if_pos (show Gas.maxLogTopics < (Turn.arg ⟨f.memory, .log, args⟩ 2).toUInt64 from hmany)]
  rfl

/-- In every run the final report has one entry for each `log` that was carried out, as it stood in the memory of the
turn. -/
theorem log_complete (m : Message) (tree : τ) (kernel : κ) (memory : Memory) (turns : List Turn) :
    let run := passages m (.start m tree kernel memory) turns
    let report := (play m (.start m tree kernel memory) turns).2.finish
    List.Forall₂ (fun p entry => entry.Spelled p.turn)
      (run.filter fun p => p.turn.op = .log && p.answer.isOk) report.logs ∧
    (∀ entry ∈ report.logs, entry.topics.length ≤ 4) ∧
    ∀ (f : Frame τ κ) (args : List UInt64), f.progress.status = .running →
      args.length = Operation.log.params.length →
      ((args.getD 2 0).toUInt32.toInt32.toInt < 0 ∨ 4 < (args.getD 2 0).toUInt32.toInt32.toInt) →
      ∃ g, invoke m .log args f = .error (.trap .invalidArgument) g ∧
        g.meter = f.meter ∧ g.progress.logs = f.progress.logs := by
  intro run report
  obtain ⟨entries, hlogs, hentries⟩ := logs_play m (.start m tree kernel memory) turns
  have hreport : report.logs = entries := hlogs
  rw [hreport]
  have hfew : ∀ entry ∈ entries, entry.topics.length ≤ 4 :=
    ((List.forall₂_and_left (R := fun entry p => entry.Spelled p.turn) _ _).1
      (List.Forall₂.flip (hentries.imp fun _ _ h => ⟨h.2, h.1⟩))).1
  refine ⟨hentries.imp fun _ _ h => h.1, hfew, fun f args hrun hlength hcount => ?_⟩
  exact ⟨_, invoke_log_of_many hrun hlength hcount, rfl, Progress.logs_trap ..⟩

private def penniless : Message := { callee := .root, sender := .root, origin := .root, gas := 0 }

private def pennilessStart : Frame NodeTree Script := .start penniless {} {} (.zeros 32)

/-- The largest word is -1 topics. -/
theorem invoke_log_negative :
    ∃ g, invoke penniless .log [0, 1, 4294967295, 0, 0, 0, 0] pennilessStart = .error (.trap .invalidArgument) g ∧
      g.meter = pennilessStart.meter ∧ g.progress.logs = [] :=
  (log_complete penniless ({} : NodeTree) ({} : Script) (.zeros 32) []).2.2 pennilessStart
    [0, 1, 4294967295, 0, 0, 0, 0] rfl rfl (.inl (by decide))

end Host

end ContractHost
