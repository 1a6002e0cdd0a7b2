import RobustMargin.Scalar
import RobustMargin.Decimal.Numeral
import RobustMargin.Decimal.Layout
import RobustMargin.Decimal.Fixed
import RobustMargin.Formulation
import RobustMargin.Status
import RobustMargin.Error
import RobustMargin.Activation
import RobustMargin.Activation.Reading
import RobustMargin.Network.Forward
import RobustMargin.Inclusion
import RobustMargin.Network.Widths
import RobustMargin.Network.Generate
import RobustMargin.Program.Text
import RobustMargin.Solver
import RobustMargin.Model
import RobustMargin.Json.Printer
import RobustMargin.Json.Parser
import RobustMargin.Json.Decoder
import RobustMargin.Verification.Report
import RobustMargin.Sweep
import RobustMargin.Solver.Simplex
import RobustMargin.Wire.Program
import RobustMargin.Wire.Query
import RobustMargin.Host
import RobustMargin.InstanceFile
import RobustMargin.Main
import RobustMargin.Proofs.ExactScalar
import RobustMargin.Proofs.Interval
import RobustMargin.Proofs.Enclosure
import RobustMargin.Proofs.Feasibility
import RobustMargin.Proofs.Arrangement
import RobustMargin.Proofs.Blueprint
import RobustMargin.Proofs.Acceptance
import RobustMargin.Proofs.Relaxation
import RobustMargin.Proofs.DualBlock
import RobustMargin.Proofs.Duality
import RobustMargin.Proofs.Multipliers
import RobustMargin.Proofs.Certificates
import RobustMargin.Proofs.Construction
import RobustMargin.Proofs.Encoding
import RobustMargin.Proofs.Redundancy
import RobustMargin.Proofs.Optimum
import RobustMargin.Proofs.Conclusions
import RobustMargin.Proofs.SolverRuns
import RobustMargin.Proofs.Certification
import RobustMargin.Proofs.Agreement
import RobustMargin.Proofs.DualBounds
import RobustMargin.Proofs.Building
import RobustMargin.Proofs.Searches
import RobustMargin.Proofs.Readings
import RobustMargin.Proofs.LifeCycle
import RobustMargin.Proofs.ExactSolver
import RobustMargin.Proofs.Nesting
import RobustMargin.Proofs.Labels
import RobustMargin.Proofs.PointBoxes
import RobustMargin.Proofs.Editing
import RobustMargin.Proofs.RawForms
import RobustMargin.Proofs.Handles
import RobustMargin.Proofs.Rounding
import RobustMargin.Proofs.Doubles
import RobustMargin.Proofs.NumberText
import RobustMargin.Proofs.LineWords
import RobustMargin.Proofs.ProgramText
import RobustMargin.Proofs.Fitting
import RobustMargin.Proofs.DoubleRounding
import RobustMargin.Proofs.DoublePlaces
import RobustMargin.Proofs.DoubleOrder
import RobustMargin.Proofs.JsonTokens
import RobustMargin.Proofs.JsonText
import RobustMargin.Proofs.JsonValues
import RobustMargin.Proofs.ProgramData
import RobustMargin.Proofs.InstanceData
import RobustMargin.Proofs.Generation
import RobustMargin.Proofs.Significands
import RobustMargin.Proofs.Narrowing
import RobustMargin.Proofs.Comparisons
import RobustMargin.Proofs.Submissions
import RobustMargin.Proofs.WitnessOrder
import RobustMargin.Proofs.Names
import RobustMargin.Proofs.Sizes
import RobustMargin.Proofs.WellFormed
import RobustMargin.Proofs.ExactRanges
import RobustMargin.Proofs.NamedActivations
import RobustMargin.Proofs.Sampling
import RobustMargin.Proofs.InclusionLayers
import RobustMargin.Proofs.IntervalSets
import RobustMargin.Proofs.UnorderedObjectives
import RobustMargin.Proofs.SeedSearch
import RobustMargin.Proofs.DoubleQuotients
import RobustMargin.Proofs.UniformDraws
import RobustMargin.Proofs.SeededNetworks
