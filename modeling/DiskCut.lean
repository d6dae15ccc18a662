import DiskCut.Mesh.Patch
import DiskCut.Pipeline
import DiskCut.Proofs.Mesh.Sides
import DiskCut.Proofs.Mesh.Table
import DiskCut.Proofs.Mesh.Join
import DiskCut.Proofs.Mesh.Sound
import DiskCut.Proofs.Mesh.Normals
import DiskCut.Proofs.Mesh.Coherent
import DiskCut.Proofs.Mesh.Derive
import DiskCut.Proofs.Mesh.Build
import DiskCut.Proofs.FeatureCut.Fan
import DiskCut.Proofs.FeatureCut.Flood
import DiskCut.Proofs.FeatureCut.Separation
import DiskCut.Proofs.FeatureCut.Split
import DiskCut.Proofs.FeatureCut.Cut
import DiskCut.Proofs.Obtained
import DiskCut.Proofs.FeatureCut.Copies
import DiskCut.Proofs.FeatureCut.Topology
import DiskCut.Proofs.FeatureCut.Drawing
import DiskCut.Proofs.Forest.Grown
import DiskCut.Proofs.Forest.Span
import DiskCut.Proofs.Forest.Growth
import DiskCut.Proofs.CutGraph.Peel
import DiskCut.Proofs.CutGraph.Tally
import DiskCut.Proofs.CutGraph.Trim
import DiskCut.Proofs.Pipeline
import DiskCut.Proofs.CutGraph.Slit
import DiskCut.Proofs.CutGraph.Anchors
import DiskCut.Proofs.CutGraph.Disks
import DiskCut.Proofs.Distance.Roads
import DiskCut.Proofs.Distance.Ranged
import DiskCut.Proofs.Completion
import DiskCut.Proofs.FeatureCut.Again
import DiskCut.Proofs.CutGraph.Marked
import DiskCut.Proofs.CutGraph.Leaves
import DiskCut.Proofs.CutGraph.Skeleton
import DiskCut.Proofs.CutGraph.Sphere
import DiskCut.Proofs.Distance.Lengths
import DiskCut.Proofs.Distance.Nearest
import DiskCut.Proofs.Binary64.Rounding
import DiskCut.Proofs.Binary64.Lengths
import DiskCut.Proofs.FeatureCut.Distances
import DiskCut.Proofs.Mesh.Renumber
import DiskCut.Proofs.Mesh.Traced
import DiskCut.Proofs.Mesh.Valid
import DiskCut.Proofs.Edited
import DiskCut.Proofs.Mesh.Lined
import DiskCut.Proofs.Mesh.Stops
import DiskCut.Proofs.Mesh.Accepted
import DiskCut.Proofs.Patch.Names
import DiskCut.Proofs.Patch.Restricted
import DiskCut.Proofs.Patch.Errors
import DiskCut.Proofs.FeatureCut.Chain
import DiskCut.Proofs.FeatureCut.Frames
import DiskCut.Proofs.ValidMeshes
import DiskCut.Proofs.Forest.Roots
import DiskCut.Proofs.Mesh.Cycles
import DiskCut.Proofs.CutGraph.Branches
import DiskCut.Proofs.CutGraph.AnyOrder
import DiskCut.Proofs.Forest.Seams
import DiskCut.Proofs.Binary64.Signs
import DiskCut.Proofs.Forest.Fences
import DiskCut.Proofs.Forest.Widest
import DiskCut.Proofs.Distance.Exact
import DiskCut.Proofs.Distance.Truncated
import DiskCut.Proofs.Mesh.Survivors
import DiskCut.Proofs.Refreshed
import DiskCut.Proofs.FeatureCut.Valence
import DiskCut.Proofs.CutGraph.InputPairs
import DiskCut.Proofs.Patch.Designations
import DiskCut.Proofs.Rederived
import DiskCut.Proofs.CutGraph.Agrees
import DiskCut.Proofs.Distance.Settled
import DiskCut.Proofs.Mesh.NormalSums
import DiskCut.Proofs.Frame.Euclidean
import DiskCut.Proofs.Frame.Orthonormal
import DiskCut.Proofs.Frame.Curved
