import AdaptiveMesh.Config.Stored
import AdaptiveMesh.Proofs.Mesh.Exact
import AdaptiveMesh.Proofs.Mesh.Stale
import AdaptiveMesh.Proofs.Tree.Convert
import AdaptiveMesh.Proofs.Tree.Edited
import AdaptiveMesh.Proofs.Tree.Walk
import AdaptiveMesh.Proofs.Tile.Search
import AdaptiveMesh.Proofs.Mesh.Frame
import AdaptiveMesh.Proofs.Mesh.LeafByLeaf
import AdaptiveMesh.Proofs.Mesh.Gaps
import AdaptiveMesh.Proofs.Location.Lockstep
import AdaptiveMesh.Proofs.Location.Codec
import AdaptiveMesh.Proofs.Location.Shift
import AdaptiveMesh.Proofs.Location.Ancestry
import AdaptiveMesh.Proofs.Mesh.GoesThrough
import AdaptiveMesh.Proofs.Tree.Opposite
import AdaptiveMesh.Proofs.Tree.Partition
import AdaptiveMesh.Proofs.Mesh.Forms
import AdaptiveMesh.Proofs.Tree.Navigate
import AdaptiveMesh.Proofs.Mesh.Average
import AdaptiveMesh.Proofs.Mesh.Conserve
import AdaptiveMesh.Proofs.Mesh.Minmod
import AdaptiveMesh.Proofs.Tree.Splice
import AdaptiveMesh.Proofs.Tree.Span
import AdaptiveMesh.Proofs.Tree.Uniform
import AdaptiveMesh.Proofs.NodeBox
import AdaptiveMesh.Proofs.Tile.Storage
