import Mathlib.Algebra.BigOperators.Group.List.Basic
import ObjectTransfer.Foundations.Runs
import ObjectTransfer.Foundations.Stateful
import ObjectTransfer.Transport.Staging

/-! # Permits and the queue they charge

Ledgers and the permits taken from them, wherever these are held. A ledger and a permit are named by
their places: what a handle points to never changes, so a permit gives back to the ledger it came
from. The byte queue of a transport owns one permit for each item that weighs anything.
-/

namespace ObjectTransfer.Transport
open Foundations List

structure Permit where
  ledger : ℕ
  amount : ℕ
  deriving DecidableEq, Repr

structure Accounts where
  ledgers : List Ledger
  permits : List Permit
  deriving DecidableEq, Repr

inductive LedgerCall where
  | acquire (ledger amount : ℕ)
  | grow (permit more : ℕ)
  | split (permit take : ℕ)
  | drop (permit : ℕ)
  | rebuilt (ledger : ℕ)

namespace Accounts

/-- Add an amount to a ledger, or leave it. -/
def charge (place : ℕ) (ledger : Ledger) (amount : ℕ) : Stateful Accounts Error Unit := do
  let charged ← Stateful.raise (ledger.charge amount)
  modify fun accounts => { accounts with ledgers := accounts.ledgers.set place charged }

def acquire (place : ℕ) (ledger : Ledger) (amount : ℕ) : Stateful Accounts Error Unit := do
  charge place ledger amount
  modify fun accounts => { accounts with permits := accounts.permits ++ [⟨place, amount⟩] }

def grow (handle : ℕ) (permit : Permit) (ledger : Ledger) (more : ℕ) :
    Stateful Accounts Error Unit := do
  let total ← Stateful.raise (okOr (checkedAdd permit.amount more) .arithmeticOverflow)
  charge permit.ledger ledger more
  modify fun accounts =>
    { accounts with permits := accounts.permits.set handle ⟨permit.ledger, total⟩ }

def split (handle : ℕ) (permit : Permit) (take : ℕ) : Stateful Accounts Error Unit := do
  Stateful.raise (rejectIf (take = 0) .invalidConfiguration)
  let rest ← Stateful.raise (okOr (checkedSub permit.amount take) .invalidConfiguration)
  modify fun accounts => { accounts with
    permits := accounts.permits.set handle ⟨permit.ledger, rest⟩ ++ [⟨permit.ledger, take⟩] }

/-- What the destructor of a permit does. -/
def drop (accounts : Accounts) (permit : Permit) (ledger : Ledger) : Accounts :=
  { accounts with ledgers := accounts.ledgers.set permit.ledger (ledger.release permit.amount) }

def held (accounts : Accounts) (handle : ℕ) : Option (Permit × Ledger) := do
  let permit ← accounts.permits[handle]?
  let ledger ← accounts.ledgers[permit.ledger]?
  return (permit, ledger)

/-- A call through a handle that exists, with the accounts it leaves; no other can be made. A permit
that is dropped is gone, and gives back what it held. -/
def call (accounts : Accounts) : LedgerCall → Option (Except Error Unit × Accounts)
  | .acquire place amount => do
    let ledger ← accounts.ledgers[place]?
    return (acquire place ledger amount).call accounts
  | .grow handle more => do
    let (permit, ledger) ← accounts.held handle
    return (grow handle permit ledger more).call accounts
  | .split handle take => do
    let (permit, _) ← accounts.held handle
    return (split handle permit take).call accounts
  | .drop handle => do
    let (permit, ledger) ← accounts.held handle
    let rest : Accounts := { accounts with permits := accounts.permits.eraseIdx handle }
    return (.ok (), rest.drop permit ledger)
  | .rebuilt place => do
    let ledger ← accounts.ledgers[place]?
    return (.ok (), { accounts with ledgers := accounts.ledgers ++ [ledger.rebuilt] })

def step (accounts : Accounts) (call : LedgerCall) : Accounts :=
  match accounts.call call with
  | some (_, next) => next
  | none => accounts

def outstanding (permits : List Permit) (place : ℕ) : ℕ :=
  (permits.map fun permit => if permit.ledger = place then permit.amount else 0).sum

/-- Every ledger holds what its permits hold, within its limit. -/
structure Conserved (limit : ℕ) (accounts : Accounts) : Prop where
  sound : ∀ place ledger, accounts.ledgers[place]? = some ledger → ledger.poisoned = false ∧
    ledger.held = outstanding accounts.permits place ∧ ledger.held ≤ ledger.limit ∧
    ledger.limit = limit
  owned : ∀ permit ∈ accounts.permits, permit.ledger < accounts.ledgers.length

section Sums

variable {permits : List Permit} {handle place : ℕ} {permit : Permit}

theorem outstanding_append (more : List Permit) : outstanding (permits ++ more) place =
    outstanding permits place + outstanding more place := by
  simp [outstanding]

theorem outstanding_cons (permits : List Permit) : outstanding (permit :: permits) place =
    (if permit.ledger = place then permit.amount else 0) + outstanding permits place := by
  simp [outstanding]

theorem outstanding_erase (h : permits[handle]? = some permit) : outstanding permits place =
    (if permit.ledger = place then permit.amount else 0) +
      outstanding (permits.eraseIdx handle) place := by
  obtain ⟨hlt, rfl⟩ := List.getElem?_eq_some_iff.mp h
  have hperm := (getElem_cons_eraseIdx_perm hlt).map fun permit : Permit =>
    if permit.ledger = place then permit.amount else 0
  exact hperm.sum_eq.symm

theorem outstanding_set (h : permits[handle]? = some permit) (next : Permit) :
    outstanding (permits.set handle next) place =
      (if next.ledger = place then next.amount else 0) +
        outstanding (permits.eraseIdx handle) place := by
  have hlt := (List.getElem?_eq_some_iff.mp h).1
  have hperm := (set_perm_cons_eraseIdx hlt next).map fun permit : Permit =>
    if permit.ledger = place then permit.amount else 0
  exact hperm.sum_eq

/-- A permit of no ledger that exists is not there. -/
theorem outstanding_eq_zero (h : ∀ permit ∈ permits, permit.ledger < place) :
    outstanding permits place = 0 := by
  refine sum_eq_zero fun amount hamount => ?_
  obtain ⟨permit, hmem, rfl⟩ := mem_map.mp hamount
  exact if_neg (h permit hmem).ne

end Sums

/-- Everything a call can do. -/
inductive Moved (accounts : Accounts) : LedgerCall → Except Error Unit → Accounts → Prop
  | failed {call : LedgerCall} {error : Error} : Moved accounts call (.error error) accounts
  | acquired {place amount : ℕ} {ledger : Ledger}
      (hledger : accounts.ledgers[place]? = some ledger) (hpoisoned : ledger.poisoned = false)
      (hle : ledger.held + amount ≤ ledger.limit) :
      Moved accounts (.acquire place amount) (.ok ())
        ⟨accounts.ledgers.set place { ledger with held := ledger.held + amount },
          accounts.permits ++ [⟨place, amount⟩]⟩
  | grown {handle more : ℕ} {permit : Permit} {ledger : Ledger}
      (hpermit : accounts.permits[handle]? = some permit)
      (hledger : accounts.ledgers[permit.ledger]? = some ledger)
      (hpoisoned : ledger.poisoned = false) (hle : ledger.held + more ≤ ledger.limit) :
      Moved accounts (.grow handle more) (.ok ())
        ⟨accounts.ledgers.set permit.ledger { ledger with held := ledger.held + more },
          accounts.permits.set handle ⟨permit.ledger, permit.amount + more⟩⟩
  | divided {handle take : ℕ} {permit : Permit}
      (hpermit : accounts.permits[handle]? = some permit) (hle : take ≤ permit.amount) :
      Moved accounts (.split handle take) (.ok ())
        ⟨accounts.ledgers, accounts.permits.set handle ⟨permit.ledger, permit.amount - take⟩ ++
          [⟨permit.ledger, take⟩]⟩
  | dropped {handle : ℕ} {permit : Permit} {ledger : Ledger}
      (hpermit : accounts.permits[handle]? = some permit)
      (hledger : accounts.ledgers[permit.ledger]? = some ledger) :
      Moved accounts (.drop handle) (.ok ())
        ⟨accounts.ledgers.set permit.ledger (ledger.release permit.amount),
          accounts.permits.eraseIdx handle⟩
  | rebuilt {place : ℕ} {ledger : Ledger} (hledger : accounts.ledgers[place]? = some ledger) :
      Moved accounts (.rebuilt place) (.ok ())
        ⟨accounts.ledgers ++ [ledger.rebuilt], accounts.permits⟩

section Calls

variable {limit : ℕ} {accounts next : Accounts} {place handle : ℕ} {permit : Permit}
  {ledger : Ledger}

theorem held_eq_some : accounts.held handle = some (permit, ledger) ↔
    accounts.permits[handle]? = some permit ∧ accounts.ledgers[permit.ledger]? = some ledger := by
  simp only [held, Option.bind_eq_bind, Option.bind_eq_some_iff, Option.pure_def,
    Option.some.injEq, Prod.mk.injEq]
  constructor
  · rintro ⟨found, hfound, kept, hkept, rfl, rfl⟩
    exact ⟨hfound, hkept⟩
  · rintro ⟨hpermit, hledger⟩
    exact ⟨permit, hpermit, ledger, hledger, rfl, rfl⟩

theorem Conserved.set (h : Conserved limit accounts) (hledger : accounts.ledgers[place]? = some ledger)
    {changed : Ledger} {permits : List Permit} (hpoisoned : changed.poisoned = false)
    (hlimit : changed.limit = ledger.limit) (hle : changed.held ≤ changed.limit)
    (hheld : changed.held = outstanding permits place)
    (hothers : ∀ other, other ≠ place →
      outstanding permits other = outstanding accounts.permits other)
    (howned : ∀ permit ∈ permits, permit.ledger = place ∨ permit ∈ accounts.permits) :
    Conserved limit ⟨accounts.ledgers.set place changed, permits⟩ := by
  have hlt := (List.getElem?_eq_some_iff.mp hledger).1
  refine ⟨fun other found hfound => ?_, fun permit hmem => ?_⟩
  · by_cases heq : other = place
    · subst heq
      rw [getElem?_set_self hlt] at hfound
      obtain rfl := Option.some.inj hfound
      exact ⟨hpoisoned, hheld, hle, hlimit.trans (h.sound other ledger hledger).2.2.2⟩
    · rw [getElem?_set_ne (Ne.symm heq)] at hfound
      rw [hothers other heq]
      exact h.sound other found hfound
  · rw [length_set]
    rcases howned permit hmem with heq | hold
    · rwa [heq]
    · exact h.owned permit hold

variable {call : LedgerCall} {outcome : Except Error Unit}

theorem call_moved (h : accounts.call call = some (outcome, next)) :
    Moved accounts call outcome next := by
  cases call with
  | acquire place amount =>
    obtain ⟨ledger, hledger, hnext⟩ := Option.bind_eq_some_iff.mp h
    cases hcharge : ledger.charge amount with
    | error =>
      simp only [acquire, charge, hcharge] at hnext
      cases hnext
      exact .failed
    | ok charged =>
      obtain ⟨-, hpoisoned, -, hle, rfl⟩ := Ledger.charge_eq_ok.mp hcharge
      simp only [acquire, charge, hcharge] at hnext
      cases hnext
      exact .acquired hledger hpoisoned hle
  | grow handle more =>
    obtain ⟨⟨permit, ledger⟩, hheld, hnext⟩ := Option.bind_eq_some_iff.mp h
    obtain ⟨hpermit, hledger⟩ := held_eq_some.mp hheld
    cases hadd : checkedAdd permit.amount more with
    | none =>
      simp only [grow, hadd] at hnext
      cases hnext
      exact .failed
    | some total =>
      obtain ⟨-, rfl⟩ := checkedAdd_eq_some.mp hadd
      cases hcharge : ledger.charge more with
      | error =>
        simp only [grow, charge, hadd, hcharge] at hnext
        cases hnext
        exact .failed
      | ok charged =>
        obtain ⟨-, hpoisoned, -, hle, rfl⟩ := Ledger.charge_eq_ok.mp hcharge
        simp only [grow, charge, hadd, hcharge] at hnext
        cases hnext
        exact .grown hpermit hledger hpoisoned hle
  | split handle take =>
    obtain ⟨⟨permit, ledger⟩, hheld, hnext⟩ := Option.bind_eq_some_iff.mp h
    by_cases hzero : take = 0
    · simp only [split, rejectIf_pos hzero] at hnext
      cases hnext
      exact .failed
    cases hsub : checkedSub permit.amount take with
    | none =>
      simp only [split, rejectIf_neg hzero, hsub] at hnext
      cases hnext
      exact .failed
    | some rest =>
      obtain ⟨hle, rfl⟩ := checkedSub_eq_some.mp hsub
      simp only [split, rejectIf_neg hzero, hsub] at hnext
      cases hnext
      exact .divided (held_eq_some.mp hheld).1 hle
  | drop handle =>
    obtain ⟨⟨permit, ledger⟩, hheld, hnext⟩ := Option.bind_eq_some_iff.mp h
    cases hnext
    exact .dropped (held_eq_some.mp hheld).1 (held_eq_some.mp hheld).2
  | rebuilt place =>
    obtain ⟨ledger, hledger, hnext⟩ := Option.bind_eq_some_iff.mp h
    cases hnext
    exact .rebuilt hledger

/-- A split moves nothing in or out. -/
theorem outstanding_split {permits : List Permit} (hpermit : permits[handle]? = some permit)
    {take : ℕ} (hle : take ≤ permit.amount) :
    outstanding (permits.set handle ⟨permit.ledger, permit.amount - take⟩ ++ [⟨permit.ledger, take⟩])
      place = outstanding permits place := by
  rw [outstanding_append, outstanding_set hpermit, outstanding_erase hpermit, outstanding_cons]
  split_ifs with heq
  · simp only [outstanding, map_nil, sum_nil]
    omega
  · simp [outstanding]

/-- A call keeps the books. -/
theorem Conserved.moved (h : Conserved limit accounts) (hmoved : Moved accounts call outcome next) :
    Conserved limit next := by
  cases hmoved with
  | failed => exact h
  | @acquired _ _ ledger hledger hpoisoned hle =>
    have hheld := (h.sound _ ledger hledger).2.1
    refine h.set hledger hpoisoned rfl hle ?_ (fun other hne => ?_) fun found hmem => ?_
    · rw [outstanding_append, outstanding_cons, if_pos rfl, ← hheld]
      rfl
    · rw [outstanding_append, outstanding_cons, if_neg (Ne.symm hne)]
      rfl
    · rcases mem_append.mp hmem with hold | hnew
      · exact .inr hold
      · exact .inl (mem_singleton.mp hnew ▸ rfl)
  | @grown _ _ permit ledger hpermit hledger hpoisoned hle =>
    have hsum := (h.sound permit.ledger ledger hledger).2.1
    refine h.set hledger hpoisoned rfl hle ?_ (fun other hne => ?_) fun found hmem => ?_
    · rw [outstanding_erase hpermit, if_pos rfl] at hsum
      rw [outstanding_set hpermit, if_pos rfl, hsum]
      dsimp only
      omega
    · rw [outstanding_set hpermit, outstanding_erase hpermit, if_neg (Ne.symm hne),
        if_neg (Ne.symm hne)]
    · rcases mem_or_eq_of_mem_set hmem with hold | rfl
      · exact .inr hold
      · exact .inl rfl
  | @divided _ _ permit hpermit hle =>
    refine ⟨fun other found hfound => ?_, fun found hmem => ?_⟩
    · rw [outstanding_split hpermit hle]
      exact h.sound other found hfound
    · have howned := h.owned permit (mem_of_getElem? hpermit)
      rcases mem_append.mp hmem with hset | hnew
      · rcases mem_or_eq_of_mem_set hset with hold | rfl
        · exact h.owned found hold
        · exact howned
      · rwa [mem_singleton.mp hnew]
  | @dropped _ permit ledger hpermit hledger =>
    obtain ⟨hpoisoned, hsum, hle, -⟩ := h.sound permit.ledger ledger hledger
    rw [outstanding_erase hpermit, if_pos rfl] at hsum
    rw [Ledger.release_of_le (by omega)]
    refine h.set hledger hpoisoned rfl ((Nat.sub_le _ _).trans hle) ?_ (fun other hne => ?_)
      fun found hmem => .inr (mem_of_mem_eraseIdx hmem)
    · dsimp only
      omega
    · rw [outstanding_erase hpermit, if_neg (Ne.symm hne), zero_add]
  | rebuilt hledger =>
    refine ⟨fun other found hfound => ?_, fun permit hmem => ?_⟩
    · by_cases hlt : other < accounts.ledgers.length
      · rw [getElem?_append_left hlt] at hfound
        exact h.sound other found hfound
      · rw [getElem?_append_right (Nat.le_of_not_lt hlt)] at hfound
        have hempty : outstanding accounts.permits other = 0 := outstanding_eq_zero fun permit hmem =>
          (h.owned permit hmem).trans_le (Nat.le_of_not_lt hlt)
        rw [hempty, mem_singleton.mp (mem_of_getElem? hfound)]
        exact ⟨rfl, rfl, Nat.zero_le _, (h.sound _ _ hledger).2.2.2⟩
    · exact (h.owned permit hmem).trans_le (by rw [length_append]; exact Nat.le_add_right _ _)

theorem Conserved.step (h : Conserved limit accounts) (call : LedgerCall) :
    Conserved limit (accounts.step call) := by
  unfold Accounts.step
  split
  next outcome next hcall => exact h.moved (call_moved hcall)
  next => exact h

/-- What a permit's holder does concerns the ledger it came from. -/
theorem permit_call_elsewhere (hpermit : accounts.permits[handle]? = some permit)
    (hcall : (∃ more, call = .grow handle more) ∨ (∃ take, call = .split handle take) ∨
      call = .drop handle) (hne : place ≠ permit.ledger) :
    (accounts.step call).ledgers[place]? = accounts.ledgers[place]? := by
  have hset (changed : Ledger) :
      (accounts.ledgers.set permit.ledger changed)[place]? = accounts.ledgers[place]? :=
    getElem?_set_ne (Ne.symm hne)
  unfold Accounts.step
  split
  next outcome next hnext =>
    cases call_moved hnext with
    | failed | divided => rfl
    | acquired | rebuilt => simp at hcall
    | grown hfound | dropped hfound =>
      obtain rfl : _ = handle := by simpa using hcall
      obtain rfl := Option.some.inj (hpermit.symm.trans hfound)
      exact hset _
  next => rfl

end Calls

end Accounts

inductive Refusal where
  | overflow
  | full
  | poisoned
  deriving DecidableEq, Repr

/-- Items with the amounts of their permits, and the ledger they are charged to. -/
structure BoundedQueue (α : Type) where
  items : List (α × Option ℕ)
  bytes : Ledger
  countLimit : ℕ
  byteLimit : ℕ

namespace BoundedQueue

variable {α : Type} (cost : α → ℕ)

def new (countLimit byteLimit : ℕ) : Except Error (BoundedQueue α) := do
  let bytes ← Ledger.new byteLimit
  return ⟨[], bytes, countLimit, byteLimit⟩

def preflight (queue : BoundedQueue α) (added addedBytes : ℕ) : Except Refusal Unit := do
  rejectIf queue.bytes.poisoned .poisoned
  let nextBytes ← okOr (checkedAdd queue.bytes.used addedBytes) .overflow
  let nextCount ← okOr (checkedAdd queue.items.length added) .overflow
  rejectIf (nextCount > queue.countLimit ∨ nextBytes > queue.byteLimit) .full

def refusalOf : Error → Refusal
  | .stagingExhausted => .full
  | .accountingPoisoned => .poisoned
  | _ => .overflow

def put (queue : BoundedQueue α) (item : α) : Except Refusal (BoundedQueue α) :=
  if cost item = 0 then .ok { queue with items := queue.items ++ [(item, none)] }
  else do
    let bytes ← (queue.bytes.charge (cost item)).mapError refusalOf
    return { queue with items := queue.items ++ [(item, some (cost item))], bytes := bytes }

def tryPush (queue : BoundedQueue α) (item : α) : Except Refusal (BoundedQueue α) := do
  rejectIf queue.bytes.poisoned .poisoned
  let nextBytes ← okOr (checkedAdd queue.bytes.used (cost item)) .overflow
  rejectIf (queue.items.length ≥ queue.countLimit ∨ nextBytes > queue.byteLimit) .full
  queue.put cost item

/-- Hand back the front item; its permit drops. -/
def pop (queue : BoundedQueue α) : BoundedQueue α × Option α :=
  match queue.items with
  | [] => (queue, none)
  | (item, permit) :: rest =>
    let bytes := match permit with
      | none => queue.bytes
      | some amount => queue.bytes.release amount
    ({ queue with items := rest, bytes := bytes }, some item)

/-- A batch of records against the protocol and the queue. -/
def preflightReliableBatch (queue : BoundedQueue α) (records : List Bytes) : Except Error Unit := do
  let addedBytes ← records.foldlM (fun bytes record => do
    validateDataRecord record
    okOr (checkedAdd bytes record.length) .arithmeticOverflow) 0
  (queue.preflight records.length addedBytes).mapError fun
    | .overflow => .arithmeticOverflow
    | .full => .outboundQueueFull
    | .poisoned => .accountingPoisoned

inductive QueueCall (α : Type) where
  | push (item : α)
  | pop

def step (queue : BoundedQueue α) : QueueCall α → BoundedQueue α
  | .push item => (queue.tryPush cost item).toOption.getD queue
  | .pop => queue.pop.1

def added (queue : BoundedQueue α) (item : α) : BoundedQueue α :=
  ⟨queue.items ++ [(item, if cost item = 0 then none else some (cost item))],
    ⟨queue.bytes.limit, queue.bytes.held + cost item, queue.bytes.poisoned⟩, queue.countLimit,
    queue.byteLimit⟩

def weight (queue : BoundedQueue α) : ℕ := (queue.items.map fun item => cost item.1).sum

/-- The ledger is charged with the weight of the items, each through its own permit. -/
structure Weighed (queue : BoundedQueue α) : Prop where
  sound : queue.bytes.poisoned = false
  charged : queue.bytes.held = queue.weight cost
  limit : queue.bytes.limit = queue.byteLimit
  permits : ∀ item ∈ queue.items, item.2 = if cost item.1 = 0 then none else some (cost item.1)

variable {cost} {queue next : BoundedQueue α} {item : α}

theorem Weighed.used (h : Weighed cost queue) : queue.bytes.used = queue.weight cost := by
  rw [Ledger.used, h.sound, ← h.charged]
  rfl

theorem Weighed.tryPush_eq_ok (h : Weighed cost queue) : queue.tryPush cost item = .ok next ↔
    queue.weight cost + cost item ≤ u64Max ∧ queue.items.length < queue.countLimit ∧
      queue.weight cost + cost item ≤ queue.byteLimit ∧ queue.added cost item = next := by
  have hcharged := h.charged
  have hlimit := h.limit
  have hput (hfit : queue.weight cost + cost item ≤ u64Max)
      (hroom : queue.weight cost + cost item ≤ queue.byteLimit) :
      queue.put cost item = .ok (queue.added cost item) := by
    unfold put added
    split_ifs with hzero
    · rw [hzero, add_zero]
    · rw [Ledger.charge_eq_ok.mpr ⟨hzero, h.sound, by omega, by omega, rfl⟩]
      rfl
  simp only [tryPush, bind_eq_ok, rejectIf_eq_ok, okOr_eq_ok, checkedAdd_eq_some, h.used, h.sound]
  constructor
  · rintro ⟨-, -, _, ⟨hfit, rfl⟩, -, hroom, hnext⟩
    rw [hput hfit (by omega)] at hnext
    exact ⟨hfit, by omega, by omega, Except.ok.inj hnext⟩
  · rintro ⟨hfit, hcount, hroom, rfl⟩
    exact ⟨(), by simp, _, ⟨hfit, rfl⟩, (), by omega, hput hfit hroom⟩

theorem weight_added : (queue.added cost item).weight cost = queue.weight cost + cost item := by
  simp [weight, added]

section

variable (h : Weighed cost queue)
include h

theorem Weighed.push (item : α) : Weighed cost (queue.added cost item) := by
  refine ⟨h.sound, ?_, h.limit, fun found hmem => ?_⟩
  · rw [weight_added, ← h.charged]
    rfl
  · rcases mem_append.mp hmem with hold | hnew
    · exact h.permits found hold
    · rw [mem_singleton.mp hnew]

theorem Weighed.pop : Weighed cost queue.pop.1 := by
  unfold BoundedQueue.pop
  split
  next => exact h
  next item permit rest hitems =>
    have hpermit : permit = if cost item = 0 then none else some (cost item) :=
      h.permits (item, permit) (by rw [hitems]; exact .head _)
    have hcharged := h.charged
    rw [weight, hitems, map_cons, sum_cons] at hcharged
    dsimp only at hcharged
    have hrest : ∀ found ∈ rest, found.2 = if cost found.1 = 0 then none else some (cost found.1) :=
      fun found hmem => h.permits found (by rw [hitems]; exact .tail _ hmem)
    split_ifs at hpermit with hzero
    · subst hpermit
      exact ⟨h.sound, by rw [hcharged, hzero, zero_add]; rfl, h.limit, hrest⟩
    · subst hpermit
      dsimp only
      rw [Ledger.release_of_le (by omega)]
      exact ⟨h.sound, by rw [hcharged, Nat.add_sub_cancel_left]; rfl, h.limit, hrest⟩

theorem Weighed.step (call : QueueCall α) :
    Weighed cost (queue.step cost call) := by
  cases call with
  | push item =>
    rw [BoundedQueue.step]
    cases hpush : queue.tryPush cost item with
    | ok =>
      obtain ⟨-, -, -, rfl⟩ := h.tryPush_eq_ok.mp hpush
      exact h.push item
    | error => exact h
  | pop => exact h.pop

theorem Weighed.pushAll (items : List α) (hfit : queue.weight cost + (items.map cost).sum ≤ u64Max)
    (hcount : queue.items.length + items.length ≤ queue.countLimit)
    (hroom : queue.weight cost + (items.map cost).sum ≤ queue.byteLimit) :
    ∃ last, items.foldlM (fun queue item => queue.tryPush cost item) queue = .ok last ∧
      last.items.map Prod.fst = queue.items.map Prod.fst ++ items := by
  induction items generalizing queue with
  | nil => exact ⟨queue, rfl, (append_nil _).symm⟩
  | cons item items ih =>
    rw [map_cons, sum_cons] at hfit hroom
    rw [length_cons] at hcount
    have hpush : queue.tryPush cost item = .ok (queue.added cost item) :=
      h.tryPush_eq_ok.mpr ⟨by omega, by omega, by omega, rfl⟩
    have hlength : (queue.added cost item).items.length = queue.items.length + 1 := by simp [added]
    have hlimits : (queue.added cost item).countLimit = queue.countLimit ∧
      (queue.added cost item).byteLimit = queue.byteLimit := ⟨rfl, rfl⟩
    obtain ⟨last, hrun, hitems⟩ := ih (h.push item) (by rw [weight_added]; omega) (by omega)
      (by rw [weight_added]; omega)
    refine ⟨last, ?_, ?_⟩
    · rw [foldlM_cons, hpush, ok_bind, hrun]
    · rw [hitems, added, map_append, append_assoc]
      rfl

end

variable {records : List Bytes}

theorem batchBytes {start total : ℕ} (h : records.foldlM (fun bytes record => do
      validateDataRecord record
      okOr (checkedAdd bytes record.length) Error.arithmeticOverflow) start = .ok total) :
    total = start + (records.map List.length).sum := by
  induction records generalizing start with
  | nil => exact (Except.ok.inj h).symm
  | cons record records ih =>
    simp only [foldlM_cons, bind_eq_ok, okOr_eq_ok, checkedAdd_eq_some] at h
    obtain ⟨_, ⟨-, -, -, rfl⟩, hrest⟩ := h
    rw [ih hrest, map_cons, sum_cons, add_assoc]

theorem Weighed.batch (h : Weighed cost queue) {wrap : Bytes → α}
    (hwrap : ∀ record, cost (wrap record) = record.length)
    (hpreflight : queue.preflightReliableBatch records = .ok ()) :
    ∃ last, (records.map wrap).foldlM (fun queue item => queue.tryPush cost item) queue = .ok last ∧
      last.items.map Prod.fst = queue.items.map Prod.fst ++ records.map wrap := by
  simp only [preflightReliableBatch, preflight, bind_eq_ok, mapError_eq_ok, rejectIf_eq_ok, okOr_eq_ok,
    checkedAdd_eq_some, h.used] at hpreflight
  obtain ⟨total, htotal, -, -, _, ⟨hfit, rfl⟩, _, ⟨-, rfl⟩, hroom⟩ := hpreflight
  have hsum : ((records.map wrap).map cost).sum = total := by
    rw [batchBytes htotal, zero_add, map_map]
    exact congrArg sum (map_congr_left fun record _ => hwrap record)
  exact h.pushAll (records.map wrap) (by omega) (by rw [length_map]; omega) (by omega)

end BoundedQueue

/-- Whatever is called on a ledger, its permits and the ledgers rebuilt from it: none is poisoned,
each holds what its own permits hold and no more than its limit, a split moves nothing in or out, a
permit's holder reaches no other ledger, and a rebuilt one starts empty. A queue is then charged
with what its items weigh, and a batch that passes the preflight is taken whole. -/
theorem ledger_conservation {limit : ℕ} {ledger : Ledger} (hnew : Ledger.new limit = .ok ledger)
    (calls : List LedgerCall) {α : Type} {cost : α → ℕ} {countLimit byteLimit : ℕ}
    {queue : BoundedQueue α} (hqueue : BoundedQueue.new countLimit byteLimit = .ok queue)
    (moves : List (BoundedQueue.QueueCall α)) :
    let accounts := run Accounts.step ⟨[ledger], []⟩ calls
    let reached := run (BoundedQueue.step cost) queue moves
    (∀ place found, accounts.ledgers[place]? = some found → found.poisoned = false ∧
      found.used = Accounts.outstanding accounts.permits place ∧ found.used ≤ limit ∧
      found.limit = limit) ∧
    (∀ call error next, accounts.call call = some (.error error, next) → next = accounts) ∧
    (∀ handle take outcome next, accounts.call (.split handle take) = some (outcome, next) →
      next.ledgers = accounts.ledgers ∧ ∀ place, Accounts.outstanding next.permits place =
        Accounts.outstanding accounts.permits place) ∧
    (∀ handle permit place call, accounts.permits[handle]? = some permit →
      ((∃ more, call = .grow handle more) ∨ (∃ take, call = .split handle take) ∨
        call = .drop handle) → place ≠ permit.ledger →
      (accounts.step call).ledgers[place]? = accounts.ledgers[place]?) ∧
    (∀ place found, accounts.ledgers[place]? = some found →
      accounts.step (.rebuilt place) =
        ⟨accounts.ledgers ++ [⟨limit, 0, false⟩], accounts.permits⟩) ∧
    reached.bytes.poisoned = false ∧ reached.bytes.used = reached.weight cost ∧
    ∀ (wrap : Bytes → α) (records : List Bytes), (∀ record, cost (wrap record) = record.length) →
      reached.preflightReliableBatch records = .ok () →
      ∃ last, (records.map wrap).foldlM (fun queue item => queue.tryPush cost item) reached =
          .ok last ∧
        last.items.map Prod.fst = reached.items.map Prod.fst ++ records.map wrap := by
  obtain ⟨-, -, hledger⟩ := bind_eq_ok.mp hnew
  obtain rfl := Except.ok.inj hledger
  have hstart : Accounts.Conserved limit ⟨[⟨limit, 0, false⟩], []⟩ := by
    refine ⟨fun place found hfound => ?_, nofun⟩
    obtain rfl := mem_singleton.mp (mem_of_getElem? hfound)
    exact ⟨rfl, rfl, Nat.zero_le _, rfl⟩
  have hstep : ∀ accounts call, Accounts.Conserved limit accounts →
      Accounts.Conserved limit (accounts.step call) := fun accounts call h => h.step call
  have hconserved := run_invariant hstep hstart calls
  obtain ⟨bytes, hbytes, hempty⟩ := bind_eq_ok.mp hqueue
  obtain rfl := Except.ok.inj hempty
  obtain ⟨-, -, hbytes⟩ := bind_eq_ok.mp hbytes
  obtain rfl := Except.ok.inj hbytes
  have hempty : BoundedQueue.Weighed cost ⟨[], ⟨byteLimit, 0, false⟩, countLimit, byteLimit⟩ :=
    ⟨rfl, rfl, rfl, nofun⟩
  have hmove : ∀ queue call, BoundedQueue.Weighed cost queue →
      BoundedQueue.Weighed cost (queue.step cost call) := fun queue call h => h.step call
  have hweighed := run_invariant hmove hempty moves
  refine ⟨fun place found hfound => ?_, fun call error next hcall => ?_,
    fun handle take outcome next hsplit => ?_,
    fun handle permit place call hpermit hcall hne =>
      Accounts.permit_call_elsewhere hpermit hcall hne,
    fun place found hfound => ?_, hweighed.sound, hweighed.used,
    fun wrap records hwrap hpreflight => hweighed.batch hwrap hpreflight⟩
  · obtain ⟨hpoisoned, hheld, hle, hlimit⟩ := hconserved.sound place found hfound
    have hused : found.used = found.held := by rw [Ledger.used, hpoisoned]; rfl
    rw [hused]
    exact ⟨hpoisoned, hheld, hlimit ▸ hle, hlimit⟩
  · cases Accounts.call_moved hcall with
    | failed => rfl
  · cases Accounts.call_moved hsplit with
    | failed => exact ⟨rfl, fun _ => rfl⟩
    | divided hpermit hle => exact ⟨rfl, fun _ => Accounts.outstanding_split hpermit hle⟩
  · rw [Accounts.step, Accounts.call, hfound]
    dsimp only [Option.bind_eq_bind, Option.bind_some]
    rw [Ledger.rebuilt, (hconserved.sound place found hfound).2.2.2]
    rfl

/-- Five are taken of ten, two of them moved to another permit, and the first permit is dropped; four
are taken of a ledger rebuilt meanwhile. -/
def sampleCalls : List LedgerCall :=
  [.acquire 0 5, .split 0 2, .rebuilt 0, .acquire 1 4, .drop 0]

/-- Of two items pushed one is left. -/
def sampleMoves : List (BoundedQueue.QueueCall ℕ) := [.push 3, .push 4, .pop]

theorem ledger_conservation_drop :
    let accounts := run Accounts.step ⟨[⟨10, 0, false⟩], []⟩ sampleCalls
    let reached := run (BoundedQueue.step id) ⟨[], ⟨8, 0, false⟩, 2, 8⟩ sampleMoves
    accounts = ⟨[⟨10, 2, false⟩, ⟨10, 4, false⟩], [⟨0, 2⟩, ⟨1, 4⟩]⟩ ∧
      (∀ (place : ℕ) (found : Ledger), accounts.ledgers[place]? = some found → found.used ≤ 10) ∧
      reached.items = [(4, some 4)] ∧ reached.bytes.used = reached.weight id := by
  have hledger : Ledger.new 10 = .ok ⟨10, 0, false⟩ := rfl
  have hqueue : BoundedQueue.new 2 8 = .ok (⟨[], ⟨8, 0, false⟩, 2, 8⟩ : BoundedQueue ℕ) := rfl
  obtain ⟨hbooks, -, -, -, -, -, hweight, -⟩ :=
    @ledger_conservation 10 _ hledger sampleCalls ℕ id 2 8 _ hqueue sampleMoves
  exact ⟨by decide, fun place found hfound => (hbooks place found hfound).2.2.1, by decide, hweight⟩

end ObjectTransfer.Transport
