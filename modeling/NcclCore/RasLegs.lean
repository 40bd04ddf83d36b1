import Mathlib.Data.List.Basic
import Mathlib.Order.Basic

/-! The legs of a RAS collective (`ras/collectives.cc`). The request goes out over the
connections of both links, and `fwdConns` keeps those that owe a response. Responses,
connections that are given up and timeouts take entries out and count in `nFwdRecv`.
The two agree exactly when no response arrives over a connection that is not in
`fwdConns` any more, and no leg is outstanding when all are given up. -/
namespace NcclCore

/-- What the accounting uses of `rasCollective`. `fwdConns` has its first `nFwdSent`
entries. `json` is the output format of the client, for a collective that starts here. -/
structure RasCollective where
  timeout : Int
  timeoutWarned : Bool
  startTime : Int
  fromConn : Option Nat
  json : Bool
  fwdConns : List (Option Nat)
  nFwdRecv : Nat
  nLegTimeouts : Int
  deriving DecidableEq

namespace RasCollective

def nFwdSent (coll : RasCollective) : Nat := coll.fwdConns.length

/-- The entries that are not null. -/
def outstanding (coll : RasCollective) : Nat := coll.fwdConns.countP Option.isSome

end RasCollective

/-- `rasLinkSendCollReq`: the connections with a `linkFlag`, and `fwdConns`. `sends` tells
over which ones the request can be sent. -/
def rasLinkSendCollReq (sends : Nat → Bool) (fromConn : Option Nat) (conns : List (Option Nat))
    (sent : List Nat × List Nat) : List Nat × List Nat :=
  conns.foldl (fun (linkFlag, fwdConns) linkConn =>
    match linkConn with
    | none => (linkFlag, fwdConns)
    | some conn =>
      if some conn = fromConn ∨ conn ∈ linkFlag then (linkFlag, fwdConns)
      else (conn :: linkFlag, if sends conn then fwdConns ++ [conn] else fwdConns)) sent

/-- A collective is waited for, complete (`rasCollReadyResp` got it), or gone without that:
its request came over a connection that is gone, or it was complete before. -/
inductive RasCollState where
  | ongoing (coll : RasCollective)
  | complete (coll : RasCollective)
  | purged
  deriving DecidableEq

/-- The test that ends every handler. -/
def RasCollective.settle (coll : RasCollective) : RasCollState :=
  if coll.nFwdSent = coll.nFwdRecv then .complete coll else .ongoing coll

/-- `rasNetSendCollReq` up to the collective it leaves. -/
def rasNetSendCollReq (sends : Nat → Bool) (fromConn : Option Nat) (json : Bool)
    (nextLink prevLink : List (Option Nat)) (timeout startTime : Int) : RasCollState :=
  let sent := rasLinkSendCollReq sends fromConn prevLink (rasLinkSendCollReq sends fromConn nextLink ([], []))
  RasCollective.settle ⟨timeout, false, startTime, fromConn, json, sent.2.map some, 0, 0⟩

/-- `rasMsgHandleCollResp` for a collective that is found. -/
def rasMsgHandleCollResp (coll : RasCollective) (conn : Nat) (nLegTimeouts : Int) : RasCollState :=
  RasCollective.settle { coll with
    nLegTimeouts := coll.nLegTimeouts + nLegTimeouts
    fwdConns := coll.fwdConns.replace (some conn) none
    nFwdRecv := coll.nFwdRecv + 1 }

/-- `rasCollsPurgeConn`. -/
def rasCollsPurgeConn (coll : RasCollective) (conn : Nat) : RasCollState :=
  if coll.fromConn = some conn then .purged
  else if some conn ∈ coll.fwdConns then
    RasCollective.settle { coll with
      fwdConns := coll.fwdConns.replace (some conn) none
      nFwdRecv := coll.nFwdRecv + 1
      nLegTimeouts := coll.nLegTimeouts + 1 }
  else .ongoing coll

/-- A connection as the timeouts see it; of its socket, whether it is ready and when it was
created. -/
structure RasConnView where
  experiencingDelays : Bool
  sock : Option (Bool × Int)

/-- The leg is not waited for any longer. -/
def RasConnView.givenUp (view : RasConnView) (startTime : Int) : Bool :=
  view.experiencingDelays || !view.sock.any fun (ready, createTime) => ready && decide (createTime < startTime)

/-- `rasCollsHandleTimeouts`, with `RAS_COLLECTIVE_EXTRA_TIMEOUT`. -/
def rasCollsHandleTimeouts (extra now : Int) (conns : Nat → RasConnView) (coll : RasCollective) : RasCollState :=
  if 0 < coll.timeout ∧ coll.timeout < now - coll.startTime then
    let late := fun conn => (conns conn).givenUp coll.startTime
    let checked := { coll with
      timeoutWarned := true
      fwdConns := coll.fwdConns.map (Option.filter fun conn => !late conn)
      nFwdRecv := coll.nFwdRecv + coll.fwdConns.countP (Option.any late)
      nLegTimeouts := coll.nLegTimeouts + coll.fwdConns.countP (Option.any late) }
    if checked.nFwdSent ≠ checked.nFwdRecv ∧ coll.timeout + extra < now - coll.startTime then
      .complete { checked with
        nLegTimeouts := checked.nLegTimeouts + (checked.nFwdSent - checked.nFwdRecv)
        nFwdRecv := checked.nFwdSent }
    else checked.settle
  else .ongoing coll

inductive RasCollEvent where
  | response (conn : Nat) (nLegTimeouts : Int)
  | purgeConn (conn : Nat)
  | timeouts (now : Int) (conns : Nat → RasConnView)

namespace RasCollective

/-- An event finds the collective on the list. -/
def handle (extra : Int) (coll : RasCollective) : RasCollEvent → RasCollState
  | .response conn nLegTimeouts => rasMsgHandleCollResp coll conn nLegTimeouts
  | .purgeConn conn => rasCollsPurgeConn coll conn
  | .timeouts now conns => rasCollsHandleTimeouts extra now conns coll

/-- The collective stays on the list when it is complete: `rasClientRunComms` does not free it
for JSON. -/
def kept (coll : RasCollective) : Bool := coll.fromConn.isNone && coll.json

end RasCollective

namespace RasCollState

/-- A complete collective that was kept has no client: `rasClientResume` frees it when it
seems complete again. -/
def handle (extra : Int) (state : RasCollState) (event : RasCollEvent) : RasCollState :=
  match state with
  | .ongoing coll => coll.handle extra event
  | .complete coll =>
    if coll.kept then
      match coll.handle extra event with
      | .ongoing coll => .complete coll
      | _ => .purged
    else state
  | .purged => .purged

/-- The counter agrees with the entries; one that is waited for has an outstanding leg, one
that is complete has none. -/
def Accounted : RasCollState → Prop
  | .ongoing coll => coll.nFwdRecv + coll.outstanding = coll.nFwdSent ∧ coll.outstanding ≠ 0
  | .complete coll => coll.nFwdRecv + coll.outstanding = coll.nFwdSent ∧ coll.outstanding = 0
  | .purged => True

/-- A response for a collective on the list arrives over a connection that owes one, and after
the second timeout no leg is left. -/
def Awaited (extra : Int) : RasCollState → RasCollEvent → Prop
  | .ongoing coll, .response conn _ => some conn ∈ coll.fwdConns
  | .complete coll, .response conn _ => coll.kept → some conn ∈ coll.fwdConns
  | .ongoing coll, .timeouts now conns =>
    0 < coll.timeout → coll.timeout < now - coll.startTime → coll.timeout + extra < now - coll.startTime →
      ∀ conn, some conn ∈ coll.fwdConns → (conns conn).givenUp coll.startTime
  | _, _ => True

/-- The accounting holds all along the events. -/
def AccountedAlong (extra : Int) (state : RasCollState) : List RasCollEvent → Prop
  | [] => state.Accounted
  | event :: later => state.Accounted ∧ AccountedAlong extra (state.handle extra event) later

def AwaitedAlong (extra : Int) (state : RasCollState) : List RasCollEvent → Prop
  | [] => True
  | event :: later => state.Awaited extra event ∧ AwaitedAlong extra (state.handle extra event) later

end RasCollState

namespace RasLegs
open RasCollective RasCollState List Option
variable {coll : RasCollective} {state : RasCollState} {conn : Nat}

theorem settle_accounted : coll.settle.Accounted ↔ coll.nFwdRecv + coll.outstanding = coll.nFwdSent := by
  unfold settle
  split
  · simp only [Accounted]
    omega
  · simp only [Accounted]
    omega

/-- One leg is taken out where there is one. -/
theorem countP_replace_conn (conns : List (Option Nat)) (conn : Nat) :
    (conns.replace (some conn) none).countP isSome =
      conns.countP isSome - if some conn ∈ conns then 1 else 0 := by
  rw [countP_replace]
  by_cases awaited : some conn ∈ conns
  · simp [awaited]
  · simp [awaited]

/-- A response keeps the account exactly when it was owed. -/
theorem response_accounted (accounted : (ongoing coll).Accounted) (nLegTimeouts : Int) :
    (rasMsgHandleCollResp coll conn nLegTimeouts).Accounted ↔ some conn ∈ coll.fwdConns := by
  obtain ⟨account, more⟩ := accounted
  simp only [rasMsgHandleCollResp, settle_accounted, outstanding, nFwdSent,
    countP_replace_conn, length_replace] at account more ⊢
  split
  next owed =>
    simp only [owed, iff_true]
    omega
  next late =>
    simp only [late, iff_false]
    omega

theorem purgeConn_accounted (accounted : (ongoing coll).Accounted) : (rasCollsPurgeConn coll conn).Accounted := by
  unfold rasCollsPurgeConn
  split
  · trivial
  split
  next owed => exact (response_accounted accounted 1).mpr owed
  next => exact accounted

/-- The legs that are given up are the ones that are taken out. -/
theorem outstanding_without (late : Nat → Bool) (conns : List (Option Nat)) :
    conns.countP (Option.any late) + (conns.map (Option.filter fun conn => !late conn)).countP Option.isSome =
      conns.countP isSome := by
  rw [countP_map]
  induction conns with
  | nil => rfl
  | cons entry rest ih =>
    cases entry with
    | none => simpa using ih
    | some conn =>
      cases isLate : late conn <;> simp [isLate] <;> omega

theorem none_left_iff (late : Nat → Bool) (conns : List (Option Nat)) :
    (conns.map (Option.filter fun conn => !late conn)).countP Option.isSome = 0 ↔
      ∀ conn, some conn ∈ conns → late conn := by
  simp only [countP_map, countP_eq_zero, Function.comp_apply]
  constructor
  · intro none conn member
    simpa using none _ member
  · intro all entry member
    cases entry with
    | none => simp
    | some conn => simp [all conn member]

/-- The timeouts keep the account exactly when they leave no leg behind. -/
theorem timeouts_accounted (accounted : (ongoing coll).Accounted) (extra now : Int) (conns : Nat → RasConnView) :
    (rasCollsHandleTimeouts extra now conns coll).Accounted ↔ (ongoing coll).Awaited extra (.timeouts now conns) := by
  have same := outstanding_without (fun conn => (conns conn).givenUp coll.startTime) coll.fwdConns
  have none_left := none_left_iff (fun conn => (conns conn).givenUp coll.startTime) coll.fwdConns
  obtain ⟨account, more⟩ := accounted
  simp only [outstanding, nFwdSent] at account more
  unfold rasCollsHandleTimeouts
  rw [Awaited, ← none_left]
  split
  next past =>
    dsimp only
    split
    next gives =>
      simp only [Accounted, outstanding, nFwdSent, length_map] at gives ⊢
      omega
    next gives =>
      simp only [settle_accounted, outstanding, nFwdSent, length_map] at gives ⊢
      omega
  next early =>
    simp only [Accounted, outstanding, nFwdSent]
    omega

/-- A complete collective that is still on the list has no legs, so only a response counts. -/
theorem kept_accounted (extra : Int) (accounted : (complete coll).Accounted) (kept : coll.kept)
    (event : RasCollEvent) :
    ((complete coll).handle extra event).Accounted ↔ (complete coll).Awaited extra event := by
  obtain ⟨account, none⟩ := accounted
  have gone : ∀ conn, some conn ∉ coll.fwdConns := by
    intro conn member
    simpa using countP_eq_zero.mp none _ member
  have equal : coll.nFwdSent = coll.nFwdRecv := by omega
  have isLocal : coll.fromConn = .none := by simp_all [RasCollective.kept]
  simp only [RasCollState.handle, kept, if_true]
  cases event with
  | response conn nLegTimeouts =>
    simp only [RasCollective.handle, rasMsgHandleCollResp, settle, nFwdSent, length_replace] at equal ⊢
    rw [if_neg (by omega), Awaited]
    simp only [Accounted, nFwdSent, length_replace, kept, gone, imp_false, not_true, iff_false]
    omega
  | purgeConn conn =>
    simp only [RasCollective.handle, rasCollsPurgeConn, isLocal, gone, reduceCtorEq, if_false]
    exact iff_of_true ⟨account, none⟩ trivial
  | timeouts now conns =>
    have late := outstanding_without (fun conn => (conns conn).givenUp coll.startTime) coll.fwdConns
    have zero : coll.fwdConns.countP isSome = 0 := none
    refine iff_of_true ?_ trivial
    rw [RasCollective.handle, rasCollsHandleTimeouts]
    by_cases past : 0 < coll.timeout ∧ coll.timeout < now - coll.startTime
    · simp only [nFwdSent, settle, length_map] at equal ⊢
      rw [if_pos past, if_neg (by omega), if_pos (by omega)]
      trivial
    · rw [if_neg past]
      exact ⟨account, none⟩

theorem handle_accounted (extra : Int) (accounted : state.Accounted) (event : RasCollEvent) :
    (state.handle extra event).Accounted ↔ state.Awaited extra event := by
  cases state with
  | ongoing =>
    cases event with
    | response conn nLegTimeouts => exact response_accounted accounted nLegTimeouts
    | purgeConn => exact iff_of_true (purgeConn_accounted accounted) trivial
    | timeouts now conns => exact timeouts_accounted accounted extra now conns
  | complete coll =>
    by_cases kept : coll.kept
    · exact kept_accounted extra accounted kept event
    · simp only [RasCollState.handle, kept]
      cases event <;> simp [Awaited, kept, accounted]
  | purged => exact iff_of_true accounted trivial

theorem along_iff (accounted : state.Accounted) (events : List RasCollEvent) :
    state.AccountedAlong extra events ↔ state.AwaitedAlong extra events := by
  induction events generalizing state with
  | nil => exact iff_of_true accounted trivial
  | cons event later ih =>
    have first := handle_accounted extra accounted event
    constructor
    · rintro ⟨-, along⟩
      have next : (state.handle extra event).Accounted := by
        cases later with
        | nil => exact along
        | cons => exact along.1
      exact ⟨first.mp next, (ih next).mp along⟩
    · rintro ⟨awaited, along⟩
      exact ⟨accounted, (ih (first.mpr awaited)).mpr along⟩

/-- Over every sequence of responses, purges and timeouts, the counter agrees with the
entries and the collective is complete exactly when no leg is outstanding, if and only if
every response that finds the collective arrives over a connection that still owes it and no
leg is outstanding at the second timeout. -/
theorem legs_accounted_iff (sends : Nat → Bool) (fromConn : Option Nat) (json : Bool)
    (nextLink prevLink : List (Option Nat)) (timeout startTime extra : Int) (events : List RasCollEvent) :
    let sent := rasNetSendCollReq sends fromConn json nextLink prevLink timeout startTime
    sent.AccountedAlong extra events ↔ sent.AwaitedAlong extra events := by
  refine along_iff ?_ events
  rw [rasNetSendCollReq, settle_accounted]
  simp [outstanding, nFwdSent]

/-- Two legs; the first is given up and its response arrives after all. The collective is
complete while the second leg is outstanding. For JSON the response of the second leg is then
counted beyond the legs. -/
theorem late_response_counted_twice :
    let sent := rasNetSendCollReq (fun _ => true) none true [some 1] [some 2] 5 0
    let events : List RasCollEvent := [.purgeConn 1, .response 1 0]
    events.foldl (RasCollState.handle 5) sent = .complete ⟨5, false, 0, none, true, [none, some 2], 2, 1⟩ ∧
      (events ++ [RasCollEvent.response 2 0]).foldl (RasCollState.handle 5) sent =
        .complete ⟨5, false, 0, none, true, [none, none], 3, 1⟩ ∧
      ¬ sent.AccountedAlong 5 events := by
  refine ⟨by decide, by decide, ?_⟩
  rintro ⟨-, -, -, complete⟩
  exact absurd complete (by decide)

end NcclCore.RasLegs
