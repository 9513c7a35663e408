import Dictenstein.DawgMap
import Dictenstein.Runs
/-!
# DawgRun — concurrent calls on one lock-free DAWG

Any number of threads call the operations of one `LockFreeDawg`.
-/
namespace Dictenstein.Dawg

open Runs Function List Option

variable {U V : Type}

structure LogEntry (U V : Type) where
  ticket : Nat
  op : DawgOp U V
  result : DawgResult

inductive Phase (U V : Type) where
  | idle
  | called (ticket : Nat) (op : DawgOp U V)
  | loaded (ticket : Nat) (op : DawgOp U V) (current : GraphVersion)
  | built (ticket : Nat) (op : DawgOp U V) (current next : GraphVersion) (result : DawgResult)
  | returning (entry : LogEntry U V)

structure DawgSystem (U V : Type) where
  heap : Heap U V
  version : GraphVersion
  calls : Nat → Phase U V
  nextTicket : Nat
  log : List (LogEntry U V)
  returned : List (LogEntry U V)
  /-- The roots that readers have captured, with what they read from them at the time. -/
  captured : List (Nat × Content U V)

inductive DawgEvent (U V : Type) where
  | call (t : Nat) (op : DawgOp U V)
  | load (t : Nat)
  | build (t : Nat)
  | swap (t : Nat)
  | ret (t : Nat)
  | capture

namespace DawgSystem

def start (heap : Heap U V) (version : GraphVersion) : DawgSystem U V := ⟨heap, version, fun _ => .idle, 0, [], [], []⟩

def new : DawgSystem U V := start [.new false] ⟨0, 0, false, 0⟩

variable [LinearOrder U]

/-- The entry of a call that finds nothing to change in the version it loads. -/
def logLoad (s : DawgSystem U V) (ticket : Nat) (op : DawgOp U V) : List (LogEntry U V) :=
  match (attempt s.heap s.version op).1 with
  | .unchanged result => [⟨ticket, op, result⟩]
  | _ => []

def step? (s : DawgSystem U V) : DawgEvent U V → Option (DawgSystem U V)
  | .call t op => match s.calls t with
    | .idle => some { s with
        calls := update s.calls t (.called s.nextTicket op), nextTicket := s.nextTicket + 1 }
    | _ => none
  | .load t => match s.calls t with
    | .called k op => some { s with
        calls := update s.calls t (.loaded k op s.version), log := s.log ++ s.logLoad k op }
    | _ => none
  | .build t => match s.calls t with
    | .loaded k op current =>
      let (outcome, heap) := attempt s.heap current op
      match outcome with
      | .unchanged result => some { s with heap, calls := update s.calls t (.returning ⟨k, op, result⟩) }
      | .publish next result => some { s with heap, calls := update s.calls t (.built k op current next result) }
      | .panicked => none
    | _ => none
  | .swap t => match s.calls t with
    | .built k op current next result =>
      if s.version.revision = current.revision then
        some { s with
          version := next, log := s.log ++ [⟨k, op, result⟩]
          calls := update s.calls t (.returning ⟨k, op, result⟩) }
      else some { s with calls := update s.calls t (.called k op) }
    | _ => none
  | .ret t => match s.calls t with
    | .returning entry => some { s with calls := update s.calls t .idle, returned := s.returned ++ [entry] }
    | _ => none
  | .capture => some { s with captured := s.captured ++ [(s.version.root, s.heap.entryAt s.version.root)] }

end DawgSystem

def Phase.ticket? : Phase U V → Option Nat
  | .idle => none
  | .called k _ | .loaded k .. | .built k .. => some k
  | .returning entry => some entry.ticket

variable [LinearOrder U]

/-- Executing the calls one at a time on `m` gives their results and ends in `m'`. -/
def Legal (m : PlainMap U V) : List (LogEntry U V) → PlainMap U V → Prop
  | [], m' => m = m'
  | e :: log, m' => e.result.Matches (m.exec e.op).2 ∧ Legal (m.exec e.op).1 log m'

theorem legal_append {m' m'' : PlainMap U V} {e : LogEntry U V} (hres : e.result.Matches (m'.exec e.op).2)
    (hend : (m'.exec e.op).1 = m'') : ∀ {log : List (LogEntry U V)} {m : PlainMap U V}, Legal m log m' →
      Legal m (log ++ [e]) m''
  | [], m, h => by
    obtain rfl : m = m' := h
    exact ⟨hres, hend⟩
  | _ :: log, m, h => ⟨h.1, legal_append hres hend h.2⟩

/-- A version a call has loaded: an older one than the published one, or that one. -/
structure Stale (s : DawgSystem U V) (current : GraphVersion) (m : PlainMap U V) : Prop where
  revision_le : current.revision ≤ s.version.revision
  same : current.revision = s.version.revision → current = s.version
  represents : Represents s.heap current m

/-- What is known of a call, by its phase: where it stands in the log, and that it builds on a map. -/
def PhaseOk (s : DawgSystem U V) : Phase U V → Prop
  | .idle => True
  | .called k _ => k ∉ s.log.map LogEntry.ticket
  | .loaded k op current => ∃ m, Stale s current m ∧
      if m.publishes op then k ∉ s.log.map LogEntry.ticket else ⟨k, op, .changed false⟩ ∈ s.log
  | .built k op current next result => k ∉ s.log.map LogEntry.ticket ∧ next.revision = current.revision + 1 ∧
      ∃ m, Stale s current m ∧ Represents s.heap next (m.exec op).1 ∧ result.Matches (m.exec op).2
  | .returning entry => entry ∈ s.log

/-- What holds in every state of a run that starts on a version of the map `m₀`. -/
structure Inv (m₀ : PlainMap U V) (s : DawgSystem U V) : Prop where
  legal : ∃ m, Legal m₀ s.log m ∧ Represents s.heap s.version m
  phase : ∀ t, PhaseOk s (s.calls t)
  log_nodup : (s.log.map LogEntry.ticket).Nodup
  log_lt : ∀ k ∈ s.log.map LogEntry.ticket, k < s.nextTicket
  ticket_lt : ∀ t k, (s.calls t).ticket? = some k → k < s.nextTicket
  ticket_inj : ∀ t u k, (s.calls t).ticket? = some k → (s.calls u).ticket? = some k → t = u
  returned_log : ∀ e ∈ s.returned, e ∈ s.log
  log_owned : ∀ e ∈ s.log, e ∈ s.returned ∨ ∃ t, (s.calls t).ticket? = some e.ticket
  captured_lt : ∀ c ∈ s.captured, c.1 < s.heap.length
  captured_eq : ∀ c ∈ s.captured, ∀ k, s.heap.entryAt c.1 k = c.2 k

section
variable {s s' : DawgSystem U V} {m₀ m : PlainMap U V}

theorem logLoad_spec (hr : Represents s.heap s.version m) (k : Nat) (op : DawgOp U V) :
    if m.publishes op then s.logLoad k op = []
    else s.logLoad k op = [⟨k, op, .changed false⟩] ∧ m.exec op = (m, some false) := by
  obtain ⟨-, hok⟩ := attempt_spec hr op
  unfold DawgSystem.logLoad
  generalize (attempt s.heap s.version op).1 = outcome at hok ⊢
  cases hok with
  | unchanged hpub hexec =>
    simp only [hpub, Bool.false_eq_true, if_false]
    exact ⟨trivial, hexec⟩
  | publish next result hpub => simp only [hpub, if_true]

/-! ## What a step leaves to the other calls -/

/-- Nodes are only added, the log only grows, and a version is published over the last one only. -/
structure Grows (s s' : DawgSystem U V) (l : List (LogEntry U V)) : Prop where
  heap : s.heap.Extends s'.heap
  version : s'.version = s.version ∨ s'.version.revision = s.version.revision + 1
  log : s'.log = s.log ++ l

variable {l : List (LogEntry U V)}

theorem Stale.grow {current : GraphVersion} (h : Stale s current m) (hg : Grows s s' l) : Stale s' current m := by
  have hle := h.revision_le
  refine ⟨?_, fun heq => ?_, h.represents.extend hg.heap⟩
  · obtain hv | hv := hg.version
    · rwa [hv]
    · omega
  · obtain hv | hv := hg.version
    · rw [hv] at heq ⊢
      exact h.same heq
    · omega

theorem Grows.notMem_log (hg : Grows s s' l) {k : Nat} (hk : k ∉ s.log.map LogEntry.ticket)
    (hl : k ∉ l.map LogEntry.ticket) : k ∉ s'.log.map LogEntry.ticket := by
  rw [hg.log, map_append, mem_append]
  exact fun h => h.elim hk hl

variable {p : Phase U V} {e : LogEntry U V} {t : Nat}

theorem Grows.mem_log (hg : Grows s s' l) (he : e ∈ s.log) : e ∈ s'.log := by
  rw [hg.log]
  exact mem_append_left l he

theorem PhaseOk.grow (h : PhaseOk s p) (hg : Grows s s' l)
    (hl : ∀ k, p.ticket? = some k → k ∉ l.map LogEntry.ticket) : PhaseOk s' p := by
  cases p with
  | idle => trivial
  | called k op => exact hg.notMem_log h (hl k rfl)
  | loaded k op current =>
    obtain ⟨m, hm, hlog⟩ := h
    refine ⟨m, hm.grow hg, ?_⟩
    split at hlog
    · rename_i hpub
      rw [if_pos hpub]
      exact hg.notMem_log hlog (hl k rfl)
    · rename_i hpub
      rw [if_neg hpub]
      exact hg.mem_log hlog
  | built k op current next result =>
    obtain ⟨hk, hrev, m, hm, hnext, hres⟩ := h
    exact ⟨hg.notMem_log hk (hl k rfl), hrev, m, hm.grow hg, hnext.extend hg.heap, hres⟩
  | returning entry => exact hg.mem_log h

/-- A step of the thread `t`, which moves to the phase `p`, logs nothing but its own call and returns what is logged. -/
theorem Inv.move (hi : Inv m₀ s) {r : List (LogEntry U V)} (hg : Grows s s' l)
    (hcalls : s'.calls = update s.calls t p) (hnext : s.nextTicket ≤ s'.nextTicket)
    (hcaptured : s'.captured = s.captured) (hreturned : s'.returned = s.returned ++ r) (hr : ∀ e ∈ r, e ∈ s.log)
    (hlegal : ∃ m, Legal m₀ s'.log m ∧ Represents s'.heap s'.version m) (hphase : PhaseOk s' p)
    (hown : ∀ e ∈ l, (s.calls t).ticket? = some e.ticket) (hnodup : (s'.log.map LogEntry.ticket).Nodup)
    (hticket : ∀ k, p.ticket? = some k → k < s'.nextTicket ∧ ∀ u, u ≠ t → (s.calls u).ticket? ≠ some k)
    (hdone : ∀ e ∈ s'.log, (s.calls t).ticket? = some e.ticket → e ∈ r ∨ p.ticket? = some e.ticket) :
    Inv m₀ s' where
  legal := hlegal
  phase := by
    rw [hcalls]
    refine (forall_update_iff _ fun _ q => PhaseOk s' q).2 ⟨hphase, fun u hu => (hi.phase u).grow hg ?_⟩
    -- what is logged is the call of `t`, and `u` has another ticket
    intro k hk hmem
    obtain ⟨e, he, rfl⟩ := mem_map.1 hmem
    exact hu (hi.ticket_inj u t e.ticket hk (hown e he))
  log_nodup := hnodup
  log_lt := by
    intro k hk
    rw [hg.log, map_append, mem_append] at hk
    obtain hk | hk := hk
    · exact lt_of_lt_of_le (hi.log_lt k hk) hnext
    · obtain ⟨e, he, rfl⟩ := mem_map.1 hk
      exact lt_of_lt_of_le (hi.ticket_lt t _ (hown e he)) hnext
  ticket_lt := by
    rw [hcalls]
    refine (forall_update_iff _ fun _ (q : Phase U V) => ∀ k, q.ticket? = some k → k < s'.nextTicket).2
      ⟨fun k hk => (hticket k hk).1, fun u _ k hk => ?_⟩
    exact lt_of_lt_of_le (hi.ticket_lt u k hk) hnext
  ticket_inj := by
    intro u v k hu hv
    rw [hcalls] at hu hv
    by_cases hut : u = t <;> by_cases hvt : v = t
    · rw [hut, hvt]
    · rw [hut, update_self] at hu
      rw [update_of_ne hvt] at hv
      exact absurd hv ((hticket k hu).2 v hvt)
    · rw [update_of_ne hut] at hu
      rw [hvt, update_self] at hv
      exact absurd hu ((hticket k hv).2 u hut)
    · rw [update_of_ne hut] at hu
      rw [update_of_ne hvt] at hv
      exact hi.ticket_inj u v k hu hv
  returned_log e he := by
    rw [hreturned, mem_append] at he
    exact hg.mem_log (he.elim (hi.returned_log e) (hr e))
  log_owned e he := by
    rw [hreturned, mem_append, hcalls]
    have hmine : (s.calls t).ticket? = some e.ticket →
        (e ∈ s.returned ∨ e ∈ r) ∨ ∃ u, (update s.calls t p u).ticket? = some e.ticket := by
      intro h
      refine (hdone e he h).imp .inr fun hp => ⟨t, ?_⟩
      rwa [update_self]
    rw [hg.log, mem_append] at he
    obtain he | he := he
    · obtain hret | ⟨u, hu⟩ := hi.log_owned e he
      · exact .inl (.inl hret)
      · by_cases hut : u = t
        · exact hmine (hut ▸ hu)
        · exact .inr ⟨u, by rwa [update_of_ne hut]⟩
    · exact hmine (hown e he)
  captured_lt := by
    rw [hcaptured]
    exact fun c hc => lt_of_lt_of_le (hi.captured_lt c hc) hg.heap.length_le
  captured_eq := by
    rw [hcaptured]
    intro c hc k
    obtain ⟨m, -, hr⟩ := hi.legal
    rw [Heap.entryAt_of_isPrefix hr.wf hg.heap.pre k (hi.captured_lt c hc), hi.captured_eq c hc]

theorem Inv.goOn (hi : Inv m₀ s) (hg : Grows s s' l)
    (hcalls : s'.calls = update s.calls t p) (hticket : p.ticket? = (s.calls t).ticket?)
    (hnext : s'.nextTicket = s.nextTicket) (hcaptured : s'.captured = s.captured) (hreturned : s'.returned = s.returned)
    (hlegal : ∃ m, Legal m₀ s'.log m ∧ Represents s'.heap s'.version m) (hphase : PhaseOk s' p)
    (hown : ∀ e ∈ l, (s.calls t).ticket? = some e.ticket) (hnodup : (s'.log.map LogEntry.ticket).Nodup) :
    Inv m₀ s' := by
  refine hi.move (r := []) hg hcalls hnext.ge hcaptured (by simpa using hreturned) nofun hlegal hphase hown hnodup ?_
    fun e _ he => .inr (hticket.trans he)
  intro k hk
  rw [hticket] at hk
  rw [hnext]
  exact ⟨hi.ticket_lt t k hk, fun u hu hku => hu (hi.ticket_inj u t k hku hk)⟩

theorem Inv.nodup_log (hi : Inv m₀ s) (he : e.ticket ∉ s.log.map LogEntry.ticket) :
    ((s.log ++ [e]).map LogEntry.ticket).Nodup := by
  rw [map_append, nodup_append]
  refine ⟨hi.log_nodup, nodup_singleton _, fun a ha b hb => ?_⟩
  obtain rfl := mem_singleton.1 hb
  exact fun heq => he (heq ▸ ha)

/-! ## The steps -/

variable {t k : Nat} {op : DawgOp U V}

section
variable (hi : Inv m₀ s)
include hi

theorem Inv.call (ht : s.calls t = .idle) (op : DawgOp U V) : Inv m₀ { s with
    calls := update s.calls t (.called s.nextTicket op), nextTicket := s.nextTicket + 1 } := by
  obtain ⟨m, hlegal, hr⟩ := hi.legal
  have hg : Grows s { s with
      calls := update s.calls t (.called s.nextTicket op), nextTicket := s.nextTicket + 1 } [] :=
    ⟨hr.wf.refl, .inl rfl, (append_nil _).symm⟩
  refine hi.move (r := []) hg rfl (Nat.le_succ _) rfl (append_nil _).symm nofun ⟨m, hlegal, hr⟩ ?_ nofun
    hi.log_nodup ?_ ?_
  · exact fun hmem => absurd (hi.log_lt _ hmem) (lt_irrefl _)
  · intro k hk
    obtain rfl : s.nextTicket = k := some.inj hk
    exact ⟨Nat.lt_succ_self _, fun u _ hu => absurd (hi.ticket_lt u _ hu) (lt_irrefl _)⟩
  · rw [ht]
    nofun

theorem Inv.load (ht : s.calls t = .called k op) : Inv m₀ { s with
    calls := update s.calls t (.loaded k op s.version), log := s.log ++ s.logLoad k op } := by
  obtain ⟨m, hlegal, hr⟩ := hi.legal
  have hk : k ∉ s.log.map LogEntry.ticket := by
    have h := hi.phase t
    rwa [ht] at h
  have hticket : (s.calls t).ticket? = some k := by rw [ht]; rfl
  have hg : Grows s { s with
      calls := update s.calls t (.loaded k op s.version), log := s.log ++ s.logLoad k op } (s.logLoad k op) :=
    ⟨hr.wf.refl, .inl rfl, rfl⟩
  have hstale : Stale { s with
      calls := update s.calls t (.loaded k op s.version), log := s.log ++ s.logLoad k op } s.version m :=
    ⟨le_rfl, fun _ => rfl, hr⟩
  have hload := logLoad_spec hr k op
  by_cases hpub : m.publishes op
  · rw [if_pos hpub] at hload
    rw [hload, append_nil] at hg hstale ⊢
    refine hi.goOn hg rfl hticket.symm rfl rfl rfl ⟨m, hlegal, hr⟩ ⟨m, hstale, ?_⟩ nofun hi.log_nodup
    rw [if_pos hpub]
    exact hk
  · rw [if_neg hpub] at hload
    obtain ⟨hlog, hexec⟩ := hload
    rw [hlog] at hg hstale ⊢
    refine hi.goOn hg rfl hticket.symm rfl rfl rfl ⟨m, legal_append ?_ ?_ hlegal, hr⟩ ⟨m, hstale, ?_⟩
      (forall_mem_singleton.2 hticket) (hi.nodup_log hk)
    · rw [hexec]
      rfl
    · rw [hexec]
    · rw [if_neg hpub]
      exact mem_append_right _ (mem_singleton_self _)

theorem Inv.build (hs : s.step? (.build t) = some s') : Inv m₀ s' := by
  obtain ⟨m', hlegal, hr⟩ := hi.legal
  simp only [DawgSystem.step?] at hs
  split at hs
  case h_2 => cases hs
  case h_1 k op current ht =>
    have hphase := hi.phase t
    rw [ht] at hphase
    obtain ⟨m, hstale, hlog⟩ := hphase
    obtain ⟨hext, hok⟩ := attempt_spec hstale.represents op
    have hticket : (s.calls t).ticket? = some k := by rw [ht]; rfl
    generalize attempt s.heap current op = result at hs hext hok
    obtain ⟨outcome, heap⟩ := result
    have hg : ∀ p : Phase U V, Grows s { s with heap, calls := update s.calls t p } [] := fun p =>
      ⟨hext, .inl rfl, (append_nil _).symm⟩
    cases hok with
    | unchanged hpub hexec =>
      cases hs
      refine hi.goOn (hg _) rfl hticket.symm rfl rfl rfl ⟨m', hlegal, hr.extend hext⟩ ?_ nofun hi.log_nodup
      rw [hpub] at hlog
      exact hlog
    | publish next res hpub hnext hres hrev =>
      cases hs
      rw [hpub] at hlog
      exact hi.goOn (hg _) rfl hticket.symm rfl rfl rfl ⟨m', hlegal, hr.extend hext⟩
        ⟨hlog, hrev, m, hstale.grow (hg _), hnext, hres⟩ nofun hi.log_nodup

theorem Inv.swap (hs : s.step? (.swap t) = some s') : Inv m₀ s' := by
  obtain ⟨m', hlegal, hr⟩ := hi.legal
  simp only [DawgSystem.step?] at hs
  split at hs
  case h_2 => cases hs
  case h_1 k op current next result ht =>
    have h := hi.phase t
    rw [ht] at h
    obtain ⟨hk, hrev, m, hstale, hnext, hres⟩ := h
    have hticket : (s.calls t).ticket? = some k := by rw [ht]; rfl
    split at hs
    · -- the loaded version is the published one, so it is the map of the log that the call has changed
      rename_i hcas
      cases hs
      have hcur : current = s.version := hstale.same hcas.symm
      obtain rfl : m = m' := (hcur ▸ hstale.represents).unique hr
      refine hi.goOn (l := [⟨k, op, result⟩]) ⟨hr.wf.refl, .inr ?_, rfl⟩ rfl hticket.symm rfl rfl rfl
        ⟨(m.exec op).1, legal_append hres rfl hlegal, hnext⟩ ?_ (forall_mem_singleton.2 hticket) (hi.nodup_log hk)
      · rw [hrev, hcur]
      · exact mem_append_right _ (mem_singleton_self _)
    · cases hs
      exact hi.goOn (l := []) ⟨hr.wf.refl, .inl rfl, (append_nil _).symm⟩ rfl hticket.symm rfl rfl rfl
        ⟨m', hlegal, hr⟩ hk nofun hi.log_nodup

theorem Inv.ret {entry : LogEntry U V} (ht : s.calls t = .returning entry) : Inv m₀ { s with
    calls := update s.calls t .idle, returned := s.returned ++ [entry] } := by
  obtain ⟨m, hlegal, hr⟩ := hi.legal
  have hentry : entry ∈ s.log := by
    have h := hi.phase t
    rwa [ht] at h
  refine hi.move (l := []) (r := [entry]) ⟨hr.wf.refl, .inl rfl, (append_nil _).symm⟩ rfl le_rfl rfl rfl
    (forall_mem_singleton.2 hentry) ⟨m, hlegal, hr⟩ trivial nofun hi.log_nodup nofun fun e he hticket => ?_
  -- a ticket is in the log once
  rw [ht] at hticket
  have heq : entry = e := inj_on_of_nodup_map hi.log_nodup hentry he (some.inj hticket)
  exact .inl (mem_singleton.2 heq.symm)

theorem Inv.capture : Inv m₀ { s with captured := s.captured ++ [(s.version.root, s.heap.entryAt s.version.root)] } := by
  obtain ⟨m, hlegal, hr⟩ := hi.legal
  exact { hi with phase := fun t => (hi.phase t).grow (l := []) ⟨hr.wf.refl, .inl rfl, (append_nil _).symm⟩ (by simp)
                  captured_lt := forall_mem_append.2 ⟨hi.captured_lt, forall_mem_singleton.2 hr.root_lt⟩
                  captured_eq := forall_mem_append.2 ⟨hi.captured_eq, forall_mem_singleton.2 fun _ => rfl⟩ }

end

theorem Inv.step {e : DawgEvent U V} (hs : s.step? e = some s') (hi : Inv m₀ s) : Inv m₀ s' := by
  cases e with
  | call t op =>
    simp only [DawgSystem.step?] at hs
    split at hs
    · rename_i ht
      cases hs
      exact hi.call ht op
    · cases hs
  | load t =>
    simp only [DawgSystem.step?] at hs
    split at hs
    · rename_i ht
      cases hs
      exact hi.load ht
    · cases hs
  | build t => exact hi.build hs
  | swap t => exact hi.swap hs
  | ret t =>
    simp only [DawgSystem.step?] at hs
    split at hs
    · rename_i ht
      cases hs
      exact hi.ret ht
    · cases hs
  | capture =>
    cases hs
    exact hi.capture

theorem inv_start {h₀ : Heap U V} {v₀ : GraphVersion} (hr : Represents h₀ v₀ m₀) : Inv m₀ (DawgSystem.start h₀ v₀) where
  legal := ⟨m₀, rfl, hr⟩
  phase _ := trivial
  log_nodup := nodup_nil
  log_lt := nofun
  ticket_lt := nofun
  ticket_inj := nofun
  returned_log := nofun
  log_owned := nofun
  captured_lt := nofun
  captured_eq := nofun

end

/-- **The concurrent calls are linearizable.** In every state of a run from a version of the map `m₀`, the calls that have
taken effect, executed one at a time on `m₀`, give the results that have been returned and the published content. The
published count is the number of final keys below the root, and every captured root reads as it did. -/
theorem dawg_linearizable {h₀ : Heap U V} {v₀ : GraphVersion} {m₀ : PlainMap U V} (hr : Represents h₀ v₀ m₀)
    (es : List (DawgEvent U V)) (s : DawgSystem U V) (hrun : run DawgSystem.step? es (.start h₀ v₀) = some s) :
    (∃ m, Legal m₀ s.log m ∧ ∀ k, s.heap.entryAt s.version.root k = m.lookup k) ∧
      (s.log.map LogEntry.ticket).Nodup ∧ (∀ e ∈ s.returned, e ∈ s.log) ∧
      ((∀ t, s.calls t = .idle) → ∀ e ∈ s.log, e ∈ s.returned) ∧
      {k | (s.heap.entryAt s.version.root k).isSome}.Finite ∧
      {k | (s.heap.entryAt s.version.root k).isSome}.ncard = s.version.termCount ∧
      ∀ c ∈ s.captured, ∀ k, s.heap.entryAt c.1 k = c.2 k := by
  have hi : Inv m₀ s := Runs.invariant (C := fun _ _ => True) (fun _ _ _ hs _ => Inv.step hs) es _ s hrun
    (along_of_forall es _ fun _ _ _ => trivial) (inv_start hr)
  obtain ⟨m, hlegal, hm⟩ := hi.legal
  refine ⟨⟨m, hlegal, hm.entry_eq⟩, hi.log_nodup, hi.returned_log, fun hidle e he => ?_, hm.ncard_keys.1, hm.ncard_keys.2,
    hi.captured_eq⟩
  obtain hret | ⟨t, ht⟩ := hi.log_owned e he
  · exact hret
  · rw [hidle t] at ht
    cases ht

theorem represents_new : Represents ([.new false] : Heap U V) ⟨0, 0, false, 0⟩ ∅ := by
  have hwf : Heap.WellFormed ([] : Heap U V) := ⟨nofun, nofun, nofun⟩
  have hext := hwf.alloc_new false
  refine ⟨hext.wf, Nat.zero_lt_one, fun k => ?_, rfl⟩
  exact Heap.entryAt_new [] k

/-- An insertion and a compaction that load one version; the compaction loses the swap and is done over. -/
theorem dawg_linearizable_race : ∃ s : DawgSystem Nat Nat,
    run DawgSystem.step? [DawgEvent.call 0 (.insertUnits [1]), .call 1 .rebuildFromVisibleEntries, .load 0,
      .load 1, .build 0,
      .build 1, .swap 0, .swap 1, .load 1, .capture, .build 1, .swap 1, .ret 1, .ret 0] .new = some s ∧
    s.returned.map LogEntry.ticket = [1, 0] ∧ s.log.map LogEntry.ticket = [0, 1] ∧ s.version.termCount = 1 ∧
    ∃ m, Legal ∅ s.log m ∧ ∀ k, s.heap.entryAt s.version.root k = m.lookup k := by
  obtain ⟨s, hs, hp⟩ := exists_run (DawgSystem.step? (U := Nat) (V := Nat))
    [DawgEvent.call 0 (.insertUnits [1]), .call 1 .rebuildFromVisibleEntries, .load 0, .load 1, .build 0,
      .build 1, .swap 0, .swap 1, .load 1, .capture, .build 1, .swap 1, .ret 1, .ret 0] .new
    (fun s => decide (s.returned.map LogEntry.ticket = [1, 0] ∧ s.log.map LogEntry.ticket = [0, 1] ∧
      s.version.termCount = 1)) (by decide +kernel)
  obtain ⟨h1, h2, h3⟩ := of_decide_eq_true hp
  exact ⟨s, hs, h1, h2, h3, (dawg_linearizable represents_new _ s hs).1⟩

theorem log_step {s s' : DawgSystem U V} {e : DawgEvent U V} (hs : s.step? e = some s') : s.log <+: s'.log := by
  cases e <;> simp only [DawgSystem.step?] at hs
  case capture =>
    cases hs
    exact prefix_rfl
  case load =>
    split at hs <;> cases hs
    exact prefix_append ..
  case call | ret =>
    split at hs <;> cases hs
    exact prefix_rfl
  case build =>
    split at hs
    · split at hs <;> cases hs <;> exact prefix_rfl
    · cases hs
  case swap =>
    split at hs
    · split at hs <;> cases hs
      · exact prefix_append ..
      · exact prefix_rfl
    · cases hs

/-- **Calls that do not overlap take effect in their order**: a call that had returned is logged before every call that was
made later. -/
theorem dawg_order_of_calls {h₀ : Heap U V} {v₀ : GraphVersion} {m₀ : PlainMap U V} (hr : Represents h₀ v₀ m₀)
    (es es' : List (DawgEvent U V)) (s s' : DawgSystem U V) (hs : run DawgSystem.step? es (.start h₀ v₀) = some s)
    (hs' : run DawgSystem.step? es' s = some s') (e e' : LogEntry U V) (he : e ∈ s.returned) (he' : e' ∈ s'.log)
    (hlater : s.nextTicket ≤ e'.ticket) : ∃ l₁ l₂ l₃, s'.log = l₁ ++ e :: l₂ ++ e' :: l₃ := by
  have hi : Inv m₀ s := of_run (fun _ _ _ => Inv.step) hs (inv_start hr)
  obtain ⟨l, hl⟩ := of_run (I := fun m => s.log <+: m.log) (fun _ _ _ hs h => h.trans (log_step hs)) hs' prefix_rfl
  obtain ⟨l₁, l₂, hlog⟩ := append_of_mem (hi.returned_log e he)
  rw [← hl] at he' ⊢
  obtain hold | hnew := mem_append.1 he'
  · have := hi.log_lt _ (mem_map_of_mem hold)
    omega
  · obtain ⟨l₃, l₄, rfl⟩ := append_of_mem hnew
    exact ⟨l₁, l₂ ++ l₃, l₄, by rw [hlog]; simp⟩

def insertCall (t : Nat) (key : List Nat) : List (DawgEvent Nat Nat) :=
  [.call t (.insertUnits key), .load t, .build t, .swap t, .ret t]

theorem dawg_order_of_two : ∃ s s' : DawgSystem Nat Nat, ∃ e e', run DawgSystem.step? (insertCall 0 [1]) .new = some s ∧
    run DawgSystem.step? (insertCall 1 [2]) s = some s' ∧ ∃ l₁ l₂ l₃, s'.log = l₁ ++ e :: l₂ ++ e' :: l₃ :=
  ⟨_, _, ⟨0, .insertUnits [1], .changed true⟩, ⟨1, .insertUnits [2], .changed true⟩, rfl, rfl,
    dawg_order_of_calls represents_new (insertCall 0 [1]) (insertCall 1 [2]) _ _ rfl rfl _ _ (.head _)
      (.tail _ (.head _)) le_rfl⟩

end Dictenstein.Dawg
