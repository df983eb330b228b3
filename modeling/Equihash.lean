import Equihash.Bytes
import Equihash.Row
import Equihash.Duplicate
import Equihash.Collide
import Equihash.Tree
import Equihash.Verifier
import Equihash.Basic
import Equihash.Optimised
import Equihash.PhaseA
import Equihash.PhaseB
import Equihash.Completeness
import Equihash.Soundness
import Equihash.Invariance
