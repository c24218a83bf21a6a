import AllSat.Solver.Consequence

namespace AllSat

inductive Value where
  | unknown
  | holds
  | fails
deriving DecidableEq

/-- A partial valuation and the consequences known so far. The tables, by code or by place, only
steer the search: whatever they hold, it is the consequences that refute. -/
structure Search (Admitted : (Nat → Bool) → Prop) where
  known : Array (Consequence Admitted)
  first : Array Nat
  second : Array Nat
  span : Array Nat
  watchers : Array (List Nat)
  value : Array Value
  reason : Array (Option (Consequence Admitted))
  position : Array Nat
  level : Array Nat
  trail : Array Nat
  head : Nat
  starts : Array Nat
  conflict : Option (Consequence Admitted)
  score : Array Nat
  raise : Nat
  positive : Array Bool
  conflicts : Nat
  room : Nat

namespace Search

variable {Admitted : (Nat → Bool) → Prop}

@[inline] def valueOf (s : Search Admitted) (k : Nat) : Value := s.value.getD k .unknown

@[inline] def positionOf (s : Search Admitted) (k : Nat) : Nat := s.position.getD (k / 2) 0

@[inline] def levelOf (s : Search Admitted) (k : Nat) : Nat := s.level.getD (k / 2) 0

def valuation (s : Search Admitted) (v : Nat) : Bool := s.valueOf (2 * v) == .holds

@[inline] def assign (s : Search Admitted) (k : Nat) (reason : Option (Consequence Admitted)) :
    Search Admitted :=
  { s with
    value := (s.value.setIfInBounds k .holds).setIfInBounds (Code.flip k) .fails
    reason := s.reason.setIfInBounds (k / 2) reason
    position := s.position.setIfInBounds (k / 2) s.trail.size
    level := s.level.setIfInBounds (k / 2) s.starts.size
    trail := s.trail.push k }

@[inline] def watch (s : Search Admitted) (i k m : Nat) : Search Admitted :=
  { s with
    first := s.first.setIfInBounds i k
    second := s.second.setIfInBounds i m
    watchers := s.watchers.modify m (i :: ·) }

def attach (s : Search Admitted) (c : Consequence Admitted) (k m span : Nat) : Search Admitted :=
  let i := s.known.size
  { s with
    known := s.known.push c
    first := s.first.push k
    second := s.second.push m
    span := s.span.push span
    watchers := (s.watchers.modify k (i :: ·)).modify m (i :: ·) }

def load (s : Search Admitted) (c : Consequence Admitted) : Search Admitted :=
  match c.codes with
  | [] => { s with conflict := some c }
  | [k] =>
    match s.valueOf k with
    | .unknown => s.assign k (some c)
    | .holds => s
    | .fails => { s with conflict := some c }
  | k :: m :: _ => s.attach c k m 0

def visit (k : Nat) : List Nat → List Nat → Search Admitted → Search Admitted
  | [], kept, s => { s with watchers := s.watchers.setIfInBounds k kept }
  | i :: rest, kept, s =>
    let here := s.first.getD i 0
    let other := if here = k then s.second.getD i 0 else here
    match s.valueOf other with
    | .holds => visit k rest (i :: kept) s
    | v =>
      if h : i < s.known.size then
        let c := s.known[i]
        match c.codes.find? fun m => m != k && m != other && s.valueOf m != .fails with
        | some m => visit k rest kept (s.watch i other m)
        | none =>
          match v with
          | .unknown => visit k rest (i :: kept) (s.assign other (some c))
          | _ =>
            { s with
              conflict := some c
              watchers := s.watchers.setIfInBounds k (rest.reverseAux (i :: kept)) }
      else visit k rest kept s

def propagate : Nat → Search Admitted → Search Admitted
  | 0, s => s
  | n + 1, s =>
    if s.conflict.isSome then s
    else if h : s.head < s.trail.size then
      let k := Code.flip s.trail[s.head]
      let watching := s.watchers.getD k []
      propagate n (visit k watching []
        { s with head := s.head + 1, watchers := s.watchers.setIfInBounds k [] })
    else s

def undo : Nat → Search Admitted → Search Admitted
  | 0, s => s
  | n + 1, s =>
    match s.trail.back? with
    | none => s
    | some k => undo n { s with
        value := (s.value.setIfInBounds k .unknown).setIfInBounds (Code.flip k) .unknown
        positive := s.positive.setIfInBounds (k / 2) (k % 2 == 0)
        trail := s.trail.pop }

def retreat (s : Search Admitted) (level : Nat) : Search Admitted :=
  let size := s.starts.getD level s.trail.size
  let starts := s.starts.take level
  let s := undo (s.trail.size - size) s
  { s with starts := starts, head := s.trail.size, conflict := none }

def favourite? (s : Search Admitted) : Nat → Option Nat → Option Nat
  | 0, best => best
  | v + 1, best =>
    match s.valueOf (2 * v), best with
    | .unknown, none => favourite? s v (some v)
    | .unknown, some b =>
      favourite? s v (if s.score.getD v 0 < s.score.getD b 0 then some b else some v)
    | _, _ => favourite? s v best

def choose (s : Search Admitted) (v : Nat) : Search Admitted :=
  let k := if s.positive.getD v false then 2 * v else 2 * v + 1
  { s with starts := s.starts.push s.trail.size }.assign k none

def start (places : Nat) (given : List (Consequence Admitted)) : Search Admitted :=
  let count := given.foldl
    (fun count c => c.codes.foldl (fun count k => count.modify k (· + 1)) count)
    (Array.replicate (2 * places) 0)
  let s : Search Admitted :=
    { known := #[]
      first := #[]
      second := #[]
      span := #[]
      watchers := Array.replicate (2 * places) []
      value := Array.replicate (2 * places) .unknown
      reason := Array.replicate places none
      position := Array.replicate places 0
      level := Array.replicate places 0
      trail := #[]
      head := 0
      starts := #[]
      conflict := none
      score := Array.ofFn fun v : Fin places =>
        max (count.getD (2 * v) 0) (count.getD (2 * v + 1) 0)
      raise := 1000
      positive := Array.ofFn fun v : Fin places =>
        decide (count.getD (2 * v + 1) 0 < count.getD (2 * v) 0)
      conflicts := 0
      room := given.length + 2000 }
  given.foldl load s

end Search

end AllSat
