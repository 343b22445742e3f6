import Flowgraph.Store.Memory

/-! Injected faults: some calls of a method pass, then some fail before they reach the store. -/

namespace Flowgraph

structure Fault where
  method : Call.Method
  skip : Nat
  count : Nat
  notFound : Bool
  deriving DecidableEq

namespace Fault

def error (f : Fault) : StoreError :=
  if f.notFound then .notFound else .unavailable ("injected " ++ f.method.name)

/-- Asks the faults on a method in order. One that still skips lets the call go on to the next
one; the first that still counts fails it. -/
def consult (method : Call.Method) : List Fault → Option StoreError × List Fault
  | [] => (none, [])
  | f :: rest =>
    if f.method ≠ method then
      let (e, rest) := consult method rest
      (e, f :: rest)
    else if 0 < f.skip then
      let (e, rest) := consult method rest
      (e, { f with skip := f.skip - 1 } :: rest)
    else if 0 < f.count then (some f.error, { f with count := f.count - 1 } :: rest)
    else
      let (e, rest) := consult method rest
      (e, f :: rest)

end Fault

/-- A store in memory behind a list of faults, with its clock and its identifiers. -/
structure World where
  store : MemoryStore
  faults : List Fault
  supply : Supply

namespace World

def answer (w : World) (c : Call) : c.Reply × World :=
  let (refused, faults) := Fault.consult c.method w.faults
  match refused with
  | some e => (.error e, { w with faults })
  | none =>
    let (reply, store, supply) := w.store.answer w.supply c
    (reply, ⟨store, faults, supply⟩)

def now (w : World) : Instant × World :=
  let (t, supply) := w.supply.now
  (t, { w with supply })

end World

end Flowgraph
