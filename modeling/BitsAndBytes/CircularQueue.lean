import BitsAndBytes.OperationRuns

/-! # The circular queue of `circularQueue.c` -/

namespace BitsAndBytes.CircularQueue

open Function

def queueEmptyValue : Int := -2147483648

inductive QueueError
  | success
  | errorFull
  | errorEmpty
  | errorMemory
  | errorInvalid
deriving DecidableEq, Repr

structure Queue where
  values : Int → Int
  head : Int
  tail : Int
  numEntries : Int
  size : Int
  initialized : Bool

def queueInit (q : Option Queue) (size : Int) (malloc : Option (Int → Int)) :
    QueueError × Option Queue :=
  match q with
  | none => (.errorInvalid, none)
  | some q =>
    if size ≤ 0 then
      (.errorInvalid, some q)
    else
      match malloc with
      | none => (.errorMemory, some q)
      | some values =>
        (.success, some
          { values := values
            head := 0
            tail := 0
            numEntries := 0
            size := size
            initialized := true })

def queueEmpty (q : Queue) : Bool :=
  decide (q.numEntries = 0)

def queueFull (q : Queue) : Bool :=
  decide (q.numEntries = q.size)

def queueEnqueue (q : Option Queue) (value : Int) : QueueError × Option Queue :=
  match q with
  | none => (.errorInvalid, none)
  | some q =>
    if !q.initialized then
      (.errorInvalid, some q)
    else if queueFull q then
      (.errorFull, some q)
    else
      (.success, some { q with
          values := update q.values q.tail value
          tail := (q.tail + 1).tmod q.size
          numEntries := q.numEntries + 1 })

def queueDequeue (q : Option Queue) (result : Bool) : QueueError × Option Int × Option Queue :=
  match q with
  | none => (.errorInvalid, none, none)
  | some q =>
    if !q.initialized || !result then
      (.errorInvalid, none, some q)
    else if queueEmpty q then
      (.errorEmpty, none, some q)
    else
      (.success, some (q.values q.head), some { q with
          head := (q.head + 1).tmod q.size
          numEntries := q.numEntries - 1 })

def queuePeek (q : Option Queue) : Int :=
  match q with
  | none => queueEmptyValue
  | some q =>
    if !q.initialized || queueEmpty q then queueEmptyValue else q.values q.head

def queueSize (q : Option Queue) : Option Int :=
  match q with
  | none => none
  | some q => if q.initialized then some q.numEntries else none

def queueClear (q : Option Queue) : QueueError × Option Queue :=
  match q with
  | none => (.errorInvalid, none)
  | some q =>
    if !q.initialized then
      (.errorInvalid, some q)
    else
      (.success, some { q with head := 0, tail := 0, numEntries := 0 })

def drain : Nat → Queue → (Int → Int) → Int → Option (Queue × (Int → Int) × Int)
  | 0, q, newValues, count =>
    if queueEmpty q then some (q, newValues, count) else none
  | bound + 1, q, newValues, count =>
    if queueEmpty q then
      some (q, newValues, count)
    else
      match queueDequeue (some q) true with
      | (_, some value, some q) =>
        drain bound q (update newValues count value) (count + 1)
      | _ => none

def queueResize (q : Option Queue) (newSize : Int)
    (malloc : Option (Int → Int)) : Option (QueueError × Option Queue) :=
  match q with
  | none => some (.errorInvalid, none)
  | some q =>
    if !q.initialized || decide (newSize ≤ 0) then
      some (.errorInvalid, some q)
    else if newSize < q.numEntries then
      some (.errorInvalid, some q)
    else
      match malloc with
      | none => some (.errorMemory, some q)
      | some newValues =>
        (drain q.numEntries.toNat q newValues 0).map fun drained =>
          (.success, some { drained.1 with
              values := drained.2.1
              size := newSize
              head := 0
              tail := drained.2.2
              numEntries := drained.2.2 })

inductive Call
  | enqueue (value : Int)
  | dequeue (result : Bool)
  | peek
  | size
  | clear
  | resize (newSize : Int) (malloc : Option (Int → Int))

structure Request where
  onNull : Bool
  call : Call

inductive Reply
  | code (code : QueueError) (stored : Option Int)
  | value (value : Int)
deriving DecidableEq, Repr

def callOn (q : Option Queue) : Call → Option (Option Queue × Reply)
  | .enqueue value =>
    some ((queueEnqueue q value).2, .code (queueEnqueue q value).1 none)
  | .dequeue result =>
    some ((queueDequeue q result).2.2, .code (queueDequeue q result).1 (queueDequeue q result).2.1)
  | .peek => some (q, .value (queuePeek q))
  | .size => (queueSize q).map fun size => (q, .value size)
  | .clear => some ((queueClear q).2, .code (queueClear q).1 none)
  | .resize newSize malloc =>
    (queueResize q newSize malloc).map fun outcome =>
      (outcome.2, .code outcome.1 none)

def step (q : Queue) (request : Request) : Option (Queue × Reply) :=
  if request.onNull then
    (callOn none request.call).map fun outcome => (q, outcome.2)
  else
    (callOn (some q) request.call).bind fun outcome =>
      outcome.1.map fun q => (q, outcome.2)

end BitsAndBytes.CircularQueue
