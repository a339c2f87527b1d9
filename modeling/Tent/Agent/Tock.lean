import Mathlib.Algebra.Order.Ring.Rat
import Mathlib.Data.List.Count
import Mathlib.Data.List.Nodup
import Mathlib.Data.List.Perm.Subperm
import Tent.Agent.Reactor
import Tent.Foundation.Transition

/-!
# Timeouts that unregister their client

`timer::tock` walks through `clients_` with a range-based `for`, which takes the begin and the end
of the vector before the first pass, and `on_timeout` erases its client from the vector in the
middle of the walk.  Iterators of a vector are pointers into its storage.  Erasing moves the
elements behind the erased one forward by one place and leaves behind the new end what was there, so
the walk skips the element behind the erased one and meets the last one again.

`tock_exact_iff` says when this does no harm: exactly if no client is registered twice and only the
last two of the list may time out.
-/

set_option autoImplicit false

namespace Tent

open Transition

/-! ### A vector in its storage -/

/-- A vector and the part of its storage that erased elements left behind. -/
structure VectorStorage (α : Type*) where
  /-- The elements. -/
  elements : List α
  /-- What lies in the storage from the end of the vector on. -/
  stale : List α
deriving DecidableEq, Repr

namespace VectorStorage

variable {α : Type*}

/-- The storage, from the begin of the vector on. -/
def slots (v : VectorStorage α) : List α := v.elements ++ v.stale

variable [DecidableEq α]

/-- `erase(remove(begin(), end(), x), end())`: the elements that are kept move to the front, the
slots behind them keep what they held. -/
def eraseAll (x : α) (v : VectorStorage α) : VectorStorage α where
  elements := v.elements.filter (· ≠ x)
  stale := v.slots.drop (v.elements.filter (· ≠ x)).length

/-- Erasing does not move the end of the storage. -/
@[simp] lemma length_slots_eraseAll (x : α) (v : VectorStorage α) :
    (v.eraseAll x).slots.length = v.slots.length := by
  have hle := List.length_filter_le (· ≠ x) v.elements
  simp only [slots, eraseAll, List.length_append, List.length_drop]
  omega

/-- The slots behind the elements that are kept stay as they are. -/
lemma getElem?_slots_eraseAll (x : α) (v : VectorStorage α) {i : ℕ}
    (hi : (v.elements.filter (· ≠ x)).length ≤ i) :
    (v.eraseAll x).slots[i]? = v.slots[i]? := by
  rw [slots, eraseAll, List.getElem?_append_right hi, List.getElem?_drop]
  congr 1
  omega

/-- Erasing what is not there changes nothing. -/
lemma eraseAll_of_notMem {x : α} {v : VectorStorage α} (hx : x ∉ v.elements) :
    v.eraseAll x = v := by
  have hfilter : v.elements.filter (· ≠ x) = v.elements :=
    List.filter_eq_self.mpr fun y hy => by simpa using fun heq : y = x => hx (heq ▸ hy)
  unfold eraseAll slots
  rw [hfilter, List.drop_left]

end VectorStorage

/-! ### The loop -/

namespace Timer

/-- What one call of `tock` does to the clients. -/
inductive TockEvent where
  /-- `elapsed_ms` was added to the elapsed time of the client. -/
  | added (client : ℕ)
  /-- `on_timeout` of the client was called, while it was registered or not. -/
  | fired (client : ℕ) (registered : Bool)
deriving DecidableEq, Repr

/-- The state of the loop of `tock`. -/
structure TockState where
  /-- `clients_` in its storage. -/
  clients : VectorStorage ℕ
  /-- `elapsed_` of the clients. -/
  elapsed : ℕ → ℚ
  /-- What was done so far. -/
  log : List TockEvent

/-- Before the first pass. -/
def tockStart (clients : List ℕ) (elapsed : ℕ → ℚ) : TockState := ⟨⟨clients, []⟩, elapsed, []⟩

variable (timeout : ℕ → ℚ) (elapsedMs : ℚ)

/-- The body of the loop for a client whose `on_timeout` calls `unreg(*this)`. -/
def serveClient (client : ℕ) (s : TockState) : TockState :=
  if timeout client ≤ s.elapsed client + elapsedMs then
    { clients := s.clients.eraseAll client
      elapsed := Function.update s.elapsed client 0
      log := s.log ++ [.added client, .fired client (decide (client ∈ s.clients.elements))] }
  else
    { s with
      elapsed := Function.update s.elapsed client (s.elapsed client + elapsedMs)
      log := s.log ++ [.added client] }

/-- The pass of the loop whose iterator stands at the position `i`. -/
def tockPass (s : TockState) (i : ℕ) : TockState :=
  match s.clients.slots[i]? with
  | some client => serveClient timeout elapsedMs client s
  | none => s

/-- `timer::tock`: the positions are those between the begin and the end that were taken before the
first pass. -/
def tock (clients : List ℕ) (elapsed : ℕ → ℚ) : TockState :=
  run (tockPass timeout elapsedMs) (tockStart clients elapsed) (List.range clients.length)

/-- The timeout of the client has come, given the elapsed time before. -/
def Due (elapsed : ℕ → ℚ) (client : ℕ) : Prop := timeout client ≤ elapsed client + elapsedMs

instance (elapsed : ℕ → ℚ) (client : ℕ) : Decidable (Due timeout elapsedMs elapsed client) :=
  inferInstanceAs (Decidable (_ ≤ _))

/-- One call of `tock` serves every registered client once, and rightly. -/
structure TockExact (clients : List ℕ) (elapsed : ℕ → ℚ) : Prop where
  /-- The time is added once to every registered client. -/
  added_once : ∀ client ∈ clients,
    (tock timeout elapsedMs clients elapsed).log.count (.added client) = 1
  /-- It is added to registered clients only. -/
  added_mem : ∀ client,
    .added client ∈ (tock timeout elapsedMs clients elapsed).log → client ∈ clients
  /-- A client whose timeout has come is called once, while it is registered. -/
  fired_once : ∀ client ∈ clients, Due timeout elapsedMs elapsed client →
    (tock timeout elapsedMs clients elapsed).log.count (.fired client true) = 1
  /-- No other client is called, and none that is no longer registered. -/
  fired_only : ∀ client registered,
    .fired client registered ∈ (tock timeout elapsedMs clients elapsed).log →
      client ∈ clients ∧ Due timeout elapsedMs elapsed client ∧ registered = true
  /-- The elapsed time is the sum, or zero after a timeout. -/
  elapsed_eq : ∀ client ∈ clients, (tock timeout elapsedMs clients elapsed).elapsed client =
    if Due timeout elapsedMs elapsed client then 0 else elapsed client + elapsedMs
  /-- The clients that did not time out stay registered, in their order. -/
  clients_eq : (tock timeout elapsedMs clients elapsed).clients.elements =
    clients.filter fun client => ¬ Due timeout elapsedMs elapsed client

variable {timeout elapsedMs} {clients : List ℕ} {elapsed : ℕ → ℚ}

/-- Unregistering in the storage is `timer::unreg`. -/
lemma elements_eraseAll (client : ℕ) (v : VectorStorage ℕ) :
    (v.eraseAll client).elements = (Timer.unreg client ⟨v.elements⟩).clients :=
  rfl

/-! ### What a pass does -/

/-- What serving a client of a list without duplicates is logged as. -/
def events (timeout : ℕ → ℚ) (elapsedMs : ℚ) (elapsed : ℕ → ℚ) (client : ℕ) : List TockEvent :=
  if Due timeout elapsedMs elapsed client then [.added client, .fired client true]
  else [.added client]

/-- The clients that the time was added to, in order. -/
def visited (log : List TockEvent) : List ℕ :=
  log.filterMap fun
    | .added client => some client
    | .fired _ _ => none

/-- A pass at a slot of the storage serves what is in the slot. -/
lemma tockPass_of_slot {s : TockState} {i client : ℕ} (hslot : s.clients.slots[i]? = some client) :
    tockPass timeout elapsedMs s i = serveClient timeout elapsedMs client s := by
  rw [tockPass, hslot]

variable (timeout elapsedMs) in
/-- Everything a pass can do to the clients. -/
lemma clients_tockPass (s : TockState) (i : ℕ) :
    (tockPass timeout elapsedMs s i).clients = s.clients ∨
      ∃ client ∈ s.clients.elements,
        (tockPass timeout elapsedMs s i).clients = s.clients.eraseAll client := by
  rw [tockPass]
  cases s.clients.slots[i]? with
  | none => exact .inl rfl
  | some client =>
    dsimp only
    rw [serveClient]
    split_ifs
    · by_cases hmem : client ∈ s.clients.elements
      · exact .inr ⟨client, hmem, rfl⟩
      · exact .inl (VectorStorage.eraseAll_of_notMem hmem)
    · exact .inl rfl

/-- A pass does not move the end of the storage. -/
@[simp] lemma length_slots_tockPass (s : TockState) (i : ℕ) :
    (tockPass timeout elapsedMs s i).clients.slots.length = s.clients.slots.length := by
  rcases clients_tockPass timeout elapsedMs s i with h | ⟨client, -, h⟩
  · rw [h]
  · rw [h, VectorStorage.length_slots_eraseAll]

/-- A pass registers nobody. -/
lemma length_elements_tockPass (s : TockState) (i : ℕ) :
    (tockPass timeout elapsedMs s i).clients.elements.length ≤ s.clients.elements.length := by
  rcases clients_tockPass timeout elapsedMs s i with h | ⟨client, -, h⟩
  · rw [h]
  · rw [h]
    exact List.length_filter_le _ _

/-- A pass leaves the last slot of the vector and what lies behind it alone. -/
lemma getElem?_slots_tockPass {s : TockState} {m : ℕ}
    (hm : s.clients.elements.length ≤ m + 1) (i : ℕ) :
    (tockPass timeout elapsedMs s i).clients.slots[m]? = s.clients.slots[m]? := by
  rcases clients_tockPass timeout elapsedMs s i with h | ⟨client, hmem, h⟩
  · rw [h]
  · rw [h]
    have hlt : (s.clients.elements.filter (· ≠ client)).length < s.clients.elements.length :=
      List.length_filter_lt_length_iff_exists.mpr ⟨client, hmem, by simp⟩
    exact VectorStorage.getElem?_slots_eraseAll client s.clients (by omega)

/-- A pass at a slot adds the time to what is in the slot. -/
lemma visited_tockPass {s : TockState} {i client : ℕ} (hslot : s.clients.slots[i]? = some client) :
    visited (tockPass timeout elapsedMs s i).log = visited s.log ++ [client] := by
  rw [tockPass_of_slot hslot, serveClient]
  split_ifs
  · simp [visited]
  · simp [visited]

/-! ### Clients that are served in order -/

/-- The clients of the first list were served rightly, and those of the second were not reached. -/
structure Served (timeout : ℕ → ℚ) (elapsedMs : ℚ) (elapsed : ℕ → ℚ) (done rest : List ℕ)
    (s : TockState) : Prop where
  /-- Every client was served once. -/
  log_eq : s.log = done.flatMap (events timeout elapsedMs elapsed)
  /-- The time was added, and a timeout started it afresh. -/
  elapsed_eq : ∀ client, s.elapsed client =
    if client ∈ done then
      if Due timeout elapsedMs elapsed client then 0 else elapsed client + elapsedMs
    else elapsed client
  /-- The clients that timed out are no longer registered. -/
  elements_eq : s.clients.elements =
    (done.filter fun client => ¬ Due timeout elapsedMs elapsed client) ++ rest

/-- A pass that finds the next client in its slot serves it rightly. -/
lemma Served.pass {done rest : List ℕ} {client : ℕ} {s : TockState}
    (hs : Served timeout elapsedMs elapsed done (client :: rest) s)
    (hnodup : (done ++ client :: rest).Nodup)
    (hslot : s.clients.slots[done.length]? = some client) :
    Served timeout elapsedMs elapsed (done ++ [client]) rest
      (tockPass timeout elapsedMs s done.length) := by
  have hnew : client ∉ done := fun hmem =>
    (List.nodup_append.mp hnodup).2.2 client hmem client List.mem_cons_self rfl
  have hrest : client ∉ rest := (List.nodup_cons.mp (List.nodup_append.mp hnodup).2.1).1
  have helapsed : s.elapsed client = elapsed client := by rw [hs.elapsed_eq, if_neg hnew]
  have hdue : timeout client ≤ s.elapsed client + elapsedMs ↔
      Due timeout elapsedMs elapsed client := by
    rw [helapsed]
    rfl
  rw [tockPass_of_slot hslot, serveClient]
  by_cases hcall : Due timeout elapsedMs elapsed client
  · rw [if_pos (hdue.mpr hcall)]
    refine ⟨?_, fun other => ?_, ?_⟩
    · have hmem : client ∈ s.clients.elements := by
        rw [hs.elements_eq]
        simp
      simp [hs.log_eq, events, hcall, hmem]
    · by_cases hother : other = client
      · simp [hother, hcall]
      · simp [hother, hs.elapsed_eq]
    · change s.clients.elements.filter (· ≠ client) = _
      rw [hs.elements_eq, List.filter_append, List.filter_append,
        List.filter_cons_of_neg (by simp), List.filter_cons_of_neg (by simpa using hcall),
        List.filter_nil, List.append_nil]
      congr 1
      · exact List.filter_eq_self.mpr fun x hx => by
          simpa using fun heq : x = client => hnew (heq ▸ (List.mem_filter.mp hx).1)
      · exact List.filter_eq_self.mpr fun x hx => by
          simpa using fun heq : x = client => hrest (heq ▸ hx)
  · rw [if_neg (hdue.not.mpr hcall)]
    refine ⟨?_, fun other => ?_, ?_⟩
    · simp [hs.log_eq, events, hcall]
    · by_cases hother : other = client
      · simp [hother, hcall, helapsed]
      · simp [hother, hs.elapsed_eq]
    · simp [hs.elements_eq, hcall]

/-- As long as nobody times out, the storage is as it was. -/
lemma Served.slots_eq {done rest : List ℕ} {s : TockState}
    (hs : Served timeout elapsedMs elapsed done rest s)
    (hdone : ∀ client ∈ done, ¬ Due timeout elapsedMs elapsed client)
    (hlen : s.clients.slots.length = (done ++ rest).length) : s.clients.slots = done ++ rest := by
  have helements : s.clients.elements = done ++ rest := by
    rw [hs.elements_eq, List.filter_eq_self.mpr fun client hc => by simpa using hdone client hc]
  rw [VectorStorage.slots, helements, List.length_append] at hlen
  rw [VectorStorage.slots, helements, List.append_right_eq_self]
  exact List.eq_nil_of_length_eq_zero (by omega)

/-- The loop over clients none of which times out. -/
lemma served_front {front rest : List ℕ} (hnodup : (front ++ rest).Nodup)
    (hfront : ∀ client ∈ front, ¬ Due timeout elapsedMs elapsed client) :
    Served timeout elapsedMs elapsed front rest
        (run (tockPass timeout elapsedMs) (tockStart (front ++ rest) elapsed)
          (List.range front.length)) ∧
      (run (tockPass timeout elapsedMs) (tockStart (front ++ rest) elapsed)
        (List.range front.length)).clients.slots = front ++ rest := by
  induction front using List.reverseRecOn generalizing rest with
  | nil => exact ⟨⟨rfl, fun _ => by simp [tockStart], rfl⟩, List.append_nil _⟩
  | append_singleton front client ih =>
    rw [List.append_assoc, List.singleton_append] at hnodup ⊢
    obtain ⟨hserved, hslots⟩ := ih hnodup fun other hother =>
      hfront other (List.mem_append_left _ hother)
    set s := run (tockPass timeout elapsedMs) (tockStart (front ++ client :: rest) elapsed)
      (List.range front.length) with hs
    have hslot : s.clients.slots[front.length]? = some client := by
      rw [hslots, List.getElem?_append_right (Nat.le_refl _)]
      simp
    have hnext := hserved.pass hnodup hslot
    have hrun : run (tockPass timeout elapsedMs) (tockStart (front ++ client :: rest) elapsed)
        (List.range (front ++ [client]).length) = tockPass timeout elapsedMs s front.length := by
      rw [List.length_append, List.length_singleton, List.range_succ, run_append]
      rfl
    rw [hrun]
    refine ⟨hnext, ?_⟩
    rw [hnext.slots_eq hfront (by rw [length_slots_tockPass, hslots]; simp)]
    simp

variable (timeout elapsedMs elapsed) in
/-- Serving a list without duplicates logs nothing twice. -/
lemma nodup_flatMap_events (hnodup : clients.Nodup) :
    (clients.flatMap (events timeout elapsedMs elapsed)).Nodup := by
  rw [List.nodup_flatMap]
  constructor
  · intro client _
    unfold events
    split_ifs <;> simp
  · refine hnodup.imp fun {client other} hne e he he' => ?_
    unfold events at he he'
    split_ifs at he he' <;> simp at he he' <;> grind

/-- If all clients were served in order, the call was exact. -/
lemma Served.exact (hnodup : clients.Nodup)
    (hs : Served timeout elapsedMs elapsed clients [] (tock timeout elapsedMs clients elapsed)) :
    TockExact timeout elapsedMs clients elapsed := by
  have hlog := nodup_flatMap_events timeout elapsedMs elapsed hnodup
  rw [← hs.log_eq] at hlog
  have hadded : ∀ client, .added client ∈ (tock timeout elapsedMs clients elapsed).log ↔
      client ∈ clients := by
    intro client
    rw [hs.log_eq, List.mem_flatMap]
    constructor
    · rintro ⟨other, hother, he⟩
      unfold events at he
      split_ifs at he <;> simp at he <;> exact he ▸ hother
    · intro hmem
      refine ⟨client, hmem, ?_⟩
      unfold events
      split_ifs <;> simp
  have hfired : ∀ client registered,
      .fired client registered ∈ (tock timeout elapsedMs clients elapsed).log ↔
        client ∈ clients ∧ Due timeout elapsedMs elapsed client ∧ registered = true := by
    intro client registered
    rw [hs.log_eq, List.mem_flatMap]
    constructor
    · rintro ⟨other, hother, he⟩
      unfold events at he
      split_ifs at he with hdue
      · simp at he
        exact ⟨he.1 ▸ hother, he.1 ▸ hdue, he.2⟩
      · simp at he
    · rintro ⟨hmem, hdue, rfl⟩
      exact ⟨client, hmem, by simp [events, hdue]⟩
  refine ⟨?_, fun client => (hadded client).mp, ?_, fun client registered =>
    (hfired client registered).mp, ?_, ?_⟩
  · exact fun client hmem => List.count_eq_one_of_mem hlog ((hadded client).mpr hmem)
  · exact fun client hmem hdue => List.count_eq_one_of_mem hlog
      ((hfired client true).mpr ⟨hmem, hdue, rfl⟩)
  · intro client hmem
    rw [hs.elapsed_eq, if_pos hmem]
  · rw [hs.elements_eq, List.append_nil]

/-! ### The last two clients -/

/-- A walk whose clients are different, and all but the last two of which do not time out, is
exact. -/
lemma tockExact_of_front (hnodup : clients.Nodup)
    (hfront : ∀ client ∈ clients.take (clients.length - 2),
      ¬ Due timeout elapsedMs elapsed client) :
    TockExact timeout elapsedMs clients elapsed := by
  refine Served.exact hnodup ?_
  obtain ⟨front, rest, hclients, htake, hrest⟩ : ∃ front rest, clients = front ++ rest ∧
      clients.take (clients.length - 2) = front ∧ rest.length ≤ 2 :=
    ⟨_, _, (List.take_append_drop (clients.length - 2) clients).symm, rfl, by
      rw [List.length_drop]
      omega⟩
  rw [htake] at hfront
  rw [hclients] at hnodup ⊢
  obtain ⟨hserved, hslots⟩ := served_front hnodup hfront
  unfold tock
  set s := run (tockPass timeout elapsedMs) (tockStart (front ++ rest) elapsed)
    (List.range front.length) with hs
  match rest, hrest with
  | [], _ =>
    rw [hs] at hserved
    simpa using hserved
  | [z], _ =>
    have hslot : s.clients.slots[front.length]? = some z := by
      rw [hslots]
      simp
    have hnext := hserved.pass hnodup hslot
    rw [List.length_append, List.length_singleton, List.range_succ, run_append, ← hs]
    exact hnext
  | [y, z], _ =>
    have hslot : s.clients.slots[front.length]? = some y := by
      rw [hslots]
      simp
    have hnext := hserved.pass hnodup hslot
    -- whether the last but one was erased or not, the last one is still in the last slot
    have hlen : s.clients.elements.length ≤ (front ++ [y]).length + 1 := by
      have hfilter := List.length_filter_le
        (fun client => decide (¬ Due timeout elapsedMs elapsed client)) front
      rw [hserved.elements_eq, List.length_append, List.length_append]
      simpa using hfilter
    have hlast : (tockPass timeout elapsedMs s front.length).clients.slots[(front ++ [y]).length]? =
        some z := by
      rw [getElem?_slots_tockPass hlen, hslots]
      simp
    have hdone := hnext.pass (by simpa using hnodup) hlast
    have hlength : (front ++ [y, z]).length = (front ++ [y]).length + 1 := by simp
    have hlength' : (front ++ [y]).length = front.length + 1 := by simp
    rw [hlength, List.range_succ, run_append, hlength', List.range_succ, run_append, ← hs]
    simpa using hdone

/-! ### Walks that go wrong -/

/-- Every pass of a walk adds the time to one client. -/
lemma length_visited_run {s : TockState} {positions : List ℕ}
    (hpositions : ∀ i ∈ positions, i < s.clients.slots.length) :
    (visited (run (tockPass timeout elapsedMs) s positions).log).length =
      (visited s.log).length + positions.length := by
  induction positions generalizing s with
  | nil => simp
  | cons i positions ih =>
    have hslot := List.getElem?_eq_getElem (hpositions i List.mem_cons_self)
    rw [run_cons, ih fun j hj => by
      rw [length_slots_tockPass]
      exact hpositions j (List.mem_cons_of_mem i hj)]
    rw [visited_tockPass hslot, List.length_append, List.length_singleton, List.length_cons]
    omega

/-- The times the time was added to a client. -/
lemma count_visited (client : ℕ) (log : List TockEvent) :
    (visited log).count client = log.count (.added client) := by
  induction log with
  | nil => rfl
  | cons e log ih =>
    cases e with
    | added other =>
      change (other :: visited log).count client = _
      rw [List.count_cons, List.count_cons, ih]
      simp
    | fired other registered =>
      change (visited log).count client = _
      rw [ih, List.count_cons_of_ne (by simp)]

/-- There are as many passes as entries in the list, so an exact walk has no client twice. -/
lemma TockExact.nodup (h : TockExact timeout elapsedMs clients elapsed) : clients.Nodup := by
  set log := (tock timeout elapsedMs clients elapsed).log with hlog
  have hmem : ∀ client, client ∈ visited log → client ∈ clients := by
    intro client hclient
    have hpos := List.count_pos_iff.mpr hclient
    rw [count_visited] at hpos
    exact h.added_mem client (List.count_pos_iff.mp hpos)
  have hnodup : (visited log).Nodup := by
    refine List.nodup_iff_count_le_one.mpr fun client => ?_
    by_cases hclient : client ∈ visited log
    · rw [count_visited]
      exact Nat.le_of_eq (h.added_once client (hmem client hclient))
    · rw [List.count_eq_zero_of_not_mem hclient]
      exact Nat.zero_le 1
  have hlength : (visited log).length = clients.length := by
    have hrange : ∀ i ∈ List.range clients.length,
        i < (tockStart clients elapsed).clients.slots.length := by
      intro i hi
      simpa [tockStart, VectorStorage.slots] using hi
    rw [hlog, tock, length_visited_run hrange, List.length_range]
    simp [tockStart, visited]
  exact ((hnodup.subperm hmem).perm_of_length_le (Nat.le_of_eq hlength.symm)).nodup_iff.mp hnodup

/-- The client is in the last two slots of the storage, and the last of them was erased. -/
structure Trailing (client m : ℕ) (s : TockState) : Prop where
  /-- The vector ends before the last slot. -/
  length_le : s.clients.elements.length ≤ m + 1
  /-- The last slot but one. -/
  slot_eq : s.clients.slots[m]? = some client
  /-- The last slot. -/
  last_eq : s.clients.slots[m + 1]? = some client

/-- No pass changes this. -/
lemma Trailing.pass {client m : ℕ} {s : TockState} (hs : Trailing client m s) (i : ℕ) :
    Trailing client m (tockPass timeout elapsedMs s i) where
  length_le := (length_elements_tockPass s i).trans hs.length_le
  slot_eq := (getElem?_slots_tockPass hs.length_le i).trans hs.slot_eq
  last_eq := (getElem?_slots_tockPass (hs.length_le.trans (Nat.le_succ _)) i).trans hs.last_eq

/-- The rest of the walk does not change it. -/
lemma Trailing.run {client m : ℕ} {s : TockState} (hs : Trailing client m s)
    (positions : List ℕ) :
    Trailing client m (Transition.run (tockPass timeout elapsedMs) s positions) :=
  run_invariant (V := fun _ => True) (fun _ i _ hs => hs.pass i) (fun _ _ => trivial) hs

/-- A client in the last two slots is met twice. -/
lemma Trailing.two_le_count {client m : ℕ} {s : TockState} (hs : Trailing client m s) :
    2 ≤ (Transition.run (tockPass timeout elapsedMs) s [m, m + 1]).log.count (.added client) := by
  rw [run_cons, run_cons, run_nil, ← count_visited, visited_tockPass (hs.pass m).last_eq,
    visited_tockPass hs.slot_eq, List.count_append, List.count_append]
  simp

/-- After a timeout in front of the last two clients the last one is in the last two slots. -/
lemma trailing_of_due {front rest : List ℕ} {client y z : ℕ}
    (hnodup : (front ++ client :: (rest ++ [y, z])).Nodup)
    (hfront : ∀ other ∈ front, ¬ Due timeout elapsedMs elapsed other)
    (hdue : Due timeout elapsedMs elapsed client) :
    Trailing z (front.length + 1 + rest.length)
      (run (tockPass timeout elapsedMs)
        (tockStart (front ++ client :: (rest ++ [y, z])) elapsed)
        (List.range (front.length + 1))) := by
  obtain ⟨hserved, hslots⟩ := served_front hnodup hfront
  rw [List.range_succ, run_append]
  set s := run (tockPass timeout elapsedMs)
    (tockStart (front ++ client :: (rest ++ [y, z])) elapsed) (List.range front.length)
  have hslot : s.clients.slots[front.length]? = some client := by
    rw [hslots]
    simp
  have hfilter : front.filter (fun other => decide (¬ Due timeout elapsedMs elapsed other)) =
      front :=
    List.filter_eq_self.mpr fun other hother => by simpa using hfront other hother
  have hbefore : s.clients.elements.length = front.length + 1 + rest.length + 2 := by
    rw [hserved.elements_eq, hfilter]
    simp
    omega
  have helements : (tockPass timeout elapsedMs s front.length).clients.elements =
      front ++ rest ++ [y] ++ [z] := by
    rw [(hserved.pass hnodup hslot).elements_eq, List.filter_append, hfilter]
    simp [hdue]
  have hlength : (front ++ rest ++ [y]).length = front.length + 1 + rest.length := by
    simp
    omega
  change Trailing z _ (tockPass timeout elapsedMs s front.length)
  refine ⟨?_, ?_, ?_⟩
  · rw [helements, List.length_append, hlength, List.length_singleton]
  · rw [VectorStorage.slots, helements, ← hlength, List.append_assoc _ [z],
      List.getElem?_append_right (Nat.le_refl _)]
    simp
  · have hlast : front ++ client :: (rest ++ [y, z]) = (front ++ client :: rest ++ [y]) ++ [z] := by
      simp
    have hindex : (front ++ client :: rest ++ [y]).length = front.length + 1 + rest.length + 1 := by
      simp
      omega
    rw [getElem?_slots_tockPass (by omega), hslots, hlast, ← hindex,
      List.getElem?_append_right (Nat.le_refl _)]
    simp

/-- In an exact walk only the last two clients time out. -/
lemma TockExact.not_due (h : TockExact timeout elapsedMs clients elapsed) :
    ∀ client ∈ clients.take (clients.length - 2), ¬ Due timeout elapsedMs elapsed client := by
  cases hfind : (clients.take (clients.length - 2)).find?
    fun client => decide (Due timeout elapsedMs elapsed client) with
  | none =>
    intro client hclient
    simpa using List.find?_eq_none.mp hfind client hclient
  | some client =>
    exfalso
    -- the first client that times out has two others behind it
    obtain ⟨hdue, front, rest, htake, hfront⟩ := List.find?_eq_some_iff_append.mp hfind
    obtain ⟨y, z, hdrop⟩ : ∃ y z, clients.drop (clients.length - 2) = [y, z] := by
      have hpos : 0 < (clients.take (clients.length - 2)).length := by
        rw [htake, List.length_append, List.length_cons]
        omega
      rw [List.length_take] at hpos
      exact List.length_eq_two.mp (by rw [List.length_drop]; omega)
    have hclients : clients = front ++ client :: (rest ++ [y, z]) := by
      rw [← List.take_append_drop (clients.length - 2) clients, htake, hdrop, List.append_assoc]
      rfl
    have hnodup := h.nodup
    have honce := h.added_once z (by rw [hclients]; simp)
    rw [hclients] at hnodup
    have htrailing : Trailing z (front.length + 1 + rest.length)
        (run (tockPass timeout elapsedMs) (tockStart clients elapsed)
          (List.range (front.length + 1))) := by
      rw [hclients]
      exact trailing_of_due hnodup (by simpa using hfront) (by simpa using hdue)
    have hlength : clients.length = front.length + 1 + rest.length + 1 + 1 := by
      rw [hclients]
      simp
      omega
    rw [tock, hlength, List.range_succ, List.range_succ, List.range_add, List.append_assoc,
      List.singleton_append, run_append, run_append] at honce
    exact absurd ((htrailing.run _).two_le_count.trans_eq honce) (by omega)

/-- One call of `tock` is exact exactly if no client is registered twice and no client in front of
the last two of the list times out. -/
theorem tock_exact_iff (timeout : ℕ → ℚ) (elapsedMs : ℚ) (clients : List ℕ) (elapsed : ℕ → ℚ) :
    TockExact timeout elapsedMs clients elapsed ↔
      clients.Nodup ∧ ∀ client ∈ clients.take (clients.length - 2),
        ¬ Due timeout elapsedMs elapsed client :=
  ⟨fun h => ⟨h.nodup, h.not_due⟩, fun h => tockExact_of_front h.1 h.2⟩

/-- Of three clients the first one times out: the second one gets no time, and the third one gets
it twice. -/
theorem tock_skips_client :
    visited (tock (fun client => if client = 1 then 5 else 100) 10 [1, 2, 3] (fun _ => 0)).log =
        [1, 3, 3] ∧
      ¬ TockExact (fun client => if client = 1 then 5 else 100) 10 [1, 2, 3] (fun _ => 0) := by
  have hvisited : visited
      (tock (fun client => if client = 1 then 5 else 100) 10 [1, 2, 3] (fun _ => 0)).log =
        [1, 3, 3] := by
    decide +kernel
  refine ⟨hvisited, fun h => ?_⟩
  have honce := h.added_once 2 (by decide)
  rw [← count_visited, hvisited] at honce
  exact absurd honce (by decide)

end Timer

end Tent
