import AllSat.Solver.Search

namespace AllSat.Search

variable {Admitted : (Nat → Bool) → Prop}

def newest? (s : Search Admitted) (codes : List Nat) : Option Nat := codes.maxOn? s.positionOf

def promote (s : Search Admitted) (codes : List Nat) : Search Admitted :=
  let raise := s.raise
  { s with score := codes.foldl (fun score k => score.modify (k / 2) (· + raise)) s.score }

def explain : Nat → Search Admitted → Consequence Admitted → Consequence Admitted × Search Admitted
  | 0, s, c => (c, s)
  | n + 1, s, c =>
    match s.newest? c.codes with
    | none => (c, s)
    | some k =>
      let depth := s.starts.size
      if depth ≠ 0 && c.codes.all fun m => m == k || s.levelOf m < depth then (c, s)
      else match s.reason.getD (k / 2) none with
        | none => (c, s)
        | some d => explain n (s.promote d.codes) (c.resolve k d)

def shorten (s : Search Admitted) : List Nat → Consequence Admitted → Consequence Admitted
  | [], c => c
  | k :: ks, c =>
    match s.reason.getD (k / 2) none with
    | none => shorten s ks c
    | some d =>
      if d.codes.all fun m => m == Code.flip k || c.codes.contains m then
        shorten s ks (c.resolve k d)
      else shorten s ks c

def maxRaise : Nat := 1000000000000000

def age (s : Search Admitted) : Search Admitted :=
  let raise := s.raise + s.raise / 16
  if raise < maxRaise then { s with raise := raise, conflicts := s.conflicts + 1 }
  else { s with
    raise := 1000
    score := s.score.map (· * 1000 / raise)
    conflicts := s.conflicts + 1 }

def learn (s : Search Admitted) (c : Consequence Admitted) : Search Admitted :=
  match s.newest? c.codes with
  | none => s
  | some k =>
    match s.newest? (c.codes.filter (· ≠ k)) with
    | none => ((s.retreat 0).assign k (some c)).age
    | some m =>
      let span := (Ascending.ofList (c.codes.map s.levelOf)).length
      (((s.retreat (s.levelOf m)).attach c k m span).assign k (some c)).age

def forget (s : Search Admitted) : Search Admitted :=
  if s.known.size ≤ s.room then s
  else
    let learned := s.span.filter (0 < ·)
    let limit := max 3 (learned.foldl (· + ·) 0 / learned.size)
    let recent := s.known.size - s.known.size / 8
    let bare := { s with
      known := #[]
      first := #[]
      second := #[]
      span := #[]
      watchers := s.watchers.map fun _ => [] }
    let kept := (List.range s.known.size).foldl (fun t i =>
      match s.known[i]? with
      | none => t
      | some c =>
        let span := s.span.getD i 0
        if span < limit || recent ≤ i then
          t.attach c (s.first.getD i 0) (s.second.getD i 0) span
        else t) bare
    { kept with room := max (s.room + 200) (kept.known.size + 1000) }

def restart (s : Search Admitted) : Search Admitted :=
  { (s.retreat 0).forget with conflicts := 0 }

end AllSat.Search
