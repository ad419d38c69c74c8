import Explore.Lib.BellmanFord
import Mathlib.Algebra.Order.Ring.Defs

/-!
# The cooperative kernel and its host loop

`batchIterations_newBest` runs on all threads of a grid, and `doMain` launches it until no
distance changes. The model is a step relation: an action lets one thread take its next
step, lets all threads through a grid sync that all have reached, or lets the host compare
the arrays. A step of a thread is the guard with the reads before it, an `atomicMin`, a copied
element or the exit of a loop. Costs are exact numbers, and an `int` is an unbounded one.
-/

namespace Explore.CudaBellmanford

open BellmanFord

/-- What `best` holds where no path is known. -/
def sentinel (K : Type*) [Semiring K] : K := 10 ^ 19

/-- The arrays `dU`, `dV` and `dC`. -/
structure Graph (K : Type*) [Semiring K] [LinearOrder K] where
  vertices : ℕ
  edges : List (Edge (Fin vertices) K)
  vertices_pos : 0 < vertices
  cost_nonneg : ∀ e ∈ edges, 0 ≤ e.c
  total_lt : weight edges < sentinel K

namespace Graph

variable {K : Type*} [Semiring K] [LinearOrder K]

/-- Vertex 0. -/
def source (graph : Graph K) : Fin graph.vertices := ⟨0, graph.vertices_pos⟩

/-- One element for each vertex. -/
abbrev DeviceVector (graph : Graph K) := Fin graph.vertices → K

end Graph

/-- Where a thread is, with its local variables. -/
inductive Pc (vertices : ℕ) (K : Type*) where
  /-- The test of the loop over edges. -/
  | relax (j : ℕ)
  /-- The guard was true. -/
  | atomicMin (j : ℕ) (v : Fin vertices) (cand : K)
  /-- The first `g.sync()`. -/
  | computed
  /-- The test of the loop over vertices. -/
  | copy (j : ℕ)
  /-- The second `g.sync()`. -/
  | copied
  | exited
  deriving DecidableEq

structure Thread (vertices : ℕ) (K : Type*) where
  i : ℕ
  pc : Pc vertices K

/-- The test of the loop over iterations. -/
def Thread.loop (vertices : ℕ) (K : Type*) (iters lane i : ℕ) : Thread vertices K :=
  if i < iters then ⟨i, .relax lane⟩ else ⟨i, .exited⟩

variable {K : Type*} [Semiring K] [LinearOrder K]

/-- The arguments of a launch. -/
structure Launch (K : Type*) [Semiring K] [LinearOrder K] where
  graph : Graph K
  iters : ℕ
  /-- `g.num_threads()`, which is also the stride. -/
  threads : ℕ
  iters_pos : 0 < iters
  threads_pos : 0 < threads

structure Grid (launch : Launch K) where
  best : launch.graph.DeviceVector
  newBest : launch.graph.DeviceVector
  thread : Fin launch.threads → Thread launch.graph.vertices K

/-- One thread takes a step, or all pass a `g.sync()`. -/
inductive GridAction (threads : ℕ) where
  | step (lane : Fin threads)
  | sync

variable {launch : Launch K}

namespace Grid

def start (launch : Launch K) (best newBest : launch.graph.DeviceVector) : Grid launch where
  best := best
  newBest := newBest
  thread lane := .loop _ K launch.iters lane 0

/-- A thread jumps to `pc`. -/
def goto (g : Grid launch) (lane : Fin launch.threads) (pc : Pc launch.graph.vertices K) :
    Grid launch :=
  { g with thread := Function.update g.thread lane ⟨(g.thread lane).i, pc⟩ }

def step (g : Grid launch) (lane : Fin launch.threads) : Option (Grid launch) :=
  match (g.thread lane).pc with
  | .relax j =>
      match launch.graph.edges[j]? with
      | some edge =>
          let cand := g.best edge.u + edge.c
          if cand < g.newBest edge.v then some (g.goto lane (.atomicMin j edge.v cand))
          else some (g.goto lane (.relax (j + launch.threads)))
      | none => some (g.goto lane .computed)
  | .atomicMin j v cand =>
      some { g.goto lane (.relax (j + launch.threads)) with
        newBest := Function.update g.newBest v (min (g.newBest v) cand) }
  | .copy j =>
      if h : j < launch.graph.vertices then
        some { g.goto lane (.copy (j + launch.threads)) with
          best := Function.update g.best ⟨j, h⟩ (g.newBest ⟨j, h⟩) }
      else some (g.goto lane .copied)
  | .computed | .copied | .exited => none

/-- After the first sync a thread that does more iterations copies, else it goes on to the
second one. -/
def afterComputed (g : Grid launch) (lane : Fin launch.threads) :
    Thread launch.graph.vertices K :=
  if (g.thread lane).i + 1 < launch.iters then ⟨(g.thread lane).i, .copy lane⟩
  else ⟨(g.thread lane).i, .copied⟩

def sync (g : Grid launch) : Option (Grid launch) :=
  if ∀ lane, (g.thread lane).pc = .computed then some { g with thread := g.afterComputed }
  else if ∀ lane, (g.thread lane).pc = .copied then
    some { g with thread := fun lane => .loop _ K launch.iters lane ((g.thread lane).i + 1) }
  else none

def act (g : Grid launch) : GridAction launch.threads → Option (Grid launch)
  | .step lane => g.step lane
  | .sync => g.sync

/-- The steps of a schedule. -/
def run (g : Grid launch) (actions : List (GridAction launch.threads)) : Option (Grid launch) :=
  actions.foldlM act g

end Grid

/-- `doMain` waits for the kernel, or has left its loop. -/
inductive Host (launch : Launch K) where
  | running (grid : Grid launch)
  | done (best : launch.graph.DeviceVector)

inductive HostAction (threads : ℕ) where
  | grid (action : GridAction threads)
  /-- The host sees that all threads have exited. -/
  | compare

namespace Host

/-- The arrays as `doMain` fills them, and the first launch. -/
def start (launch : Launch K) : Host launch :=
  let best := initial launch.graph.source (sentinel K)
  .running (.start launch best best)

def act : Host launch → HostAction launch.threads → Option (Host launch)
  | .running g, .grid action => (g.act action).map .running
  | .running g, .compare =>
      if ∀ lane, (g.thread lane).pc = .exited then
        let anyChanged : Prop := ¬∀ v, g.newBest v = g.best v
        let best := g.newBest
        if anyChanged then some (.running (.start launch best g.newBest)) else some (.done best)
      else none
  | .done _, _ => none

def run (host : Host launch) (actions : List (HostAction launch.threads)) :
    Option (Host launch) :=
  actions.foldlM act host

end Host

end Explore.CudaBellmanford
