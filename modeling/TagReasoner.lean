import TagReasoner.Text.Blank
import TagReasoner.Text.CodePoint
import TagReasoner.Text.DecimalDigit
import TagReasoner.Text.Pieces
import TagReasoner.Text.Printable
import TagReasoner.Text.Quoted
import TagReasoner.Text.UpperCase
import TagReasoner.Text.Utf8
import TagReasoner.Binary64.Display
import TagReasoner.Number.Numeral
import TagReasoner.Calendar.Reading
import TagReasoner.Error
import TagReasoner.Notice
import TagReasoner.Argument.Reading
import TagReasoner.Tag.Order
import TagReasoner.Tag.Reading
import TagReasoner.Tag.Sentence
import TagReasoner.Collection.Keyed
import TagReasoner.Collection.WorkingSet
import TagReasoner.Matching.Substitution
import TagReasoner.Matching.Satisfaction
import TagReasoner.Composition.Passes
import TagReasoner.Reasoning.ExpertSystem
import TagReasoner.Document.Basic
import TagReasoner.Document.Reading
import TagReasoner.Network.Search
import TagReasoner.Network.Record
import TagReasoner.Network.Loading
import TagReasoner.Network.KnowledgeBase
import TagReasoner.Configuration.Reading
import TagReasoner.Configuration.Logging
import TagReasoner.Proofs.Collection.Keyed
import TagReasoner.Proofs.Tag.Equality
import TagReasoner.Proofs.Matching.Resolution
import TagReasoner.Proofs.Matching.Assignment
import TagReasoner.Proofs.Matching.Unification
import TagReasoner.Proofs.Matching.PlainFacts
import TagReasoner.Proofs.Matching.Satisfaction
import TagReasoner.Proofs.Collection.WorkingSet
import TagReasoner.Proofs.Reasoning.Snapshot
import TagReasoner.Proofs.Reasoning.Run
import TagReasoner.Proofs.Reasoning.Cycle
import TagReasoner.Proofs.Reasoning.Closure
import TagReasoner.Proofs.Reasoning.CycleBound
import TagReasoner.Proofs.Reasoning.Quiescence
import TagReasoner.Proofs.Reasoning.Disjointness
import TagReasoner.Proofs.Text.DecimalDigit
import TagReasoner.Proofs.Composition.Renaming
import TagReasoner.Proofs.Composition.Lockstep
import TagReasoner.Proofs.Composition.Soundness
import TagReasoner.Proofs.Matching.Refinement
import TagReasoner.Proofs.Reasoning.ProvenRule
import TagReasoner.Proofs.Reasoning.Groundness
import TagReasoner.Proofs.Text.Pieces
import TagReasoner.Proofs.Tag.Reading
import TagReasoner.Proofs.Tag.RoundTrip
import TagReasoner.Proofs.Tag.Legibility
import TagReasoner.Proofs.Binary64.Rounding
import TagReasoner.Proofs.Binary64.Display
import TagReasoner.Proofs.Number.Numeral
import TagReasoner.Proofs.Network.RecordRoundTrip
import TagReasoner.Proofs.Network.Layer
import TagReasoner.Proofs.Network.Reachability
import TagReasoner.Proofs.Network.WellKeyed
import TagReasoner.Proofs.Network.OrderIndependence
import TagReasoner.Proofs.Network.Eviction
import TagReasoner.Proofs.Network.Spreading
import TagReasoner.Proofs.Network.Saturation
import TagReasoner.Proofs.Network.Agreement
import TagReasoner.Proofs.Network.History
import TagReasoner.Proofs.Network.Belief
import TagReasoner.Proofs.Composition.CaptureFree
import TagReasoner.Proofs.Reasoning.BareMarks
import TagReasoner.Proofs.Composition.Choice
import TagReasoner.Proofs.Composition.Walks
import TagReasoner.Proofs.Tag.TopLevelCommas
import TagReasoner.Proofs.Tag.Wording
import TagReasoner.Proofs.Matching.VariableNames
import TagReasoner.Proofs.Matching.PatternOrder
import TagReasoner.Proofs.Matching.Symmetry
import TagReasoner.Proofs.Network.Activation
import TagReasoner.Proofs.Tag.FactGrammar
import TagReasoner.Proofs.Tag.Nesting
import TagReasoner.Proofs.Network.Loading
import TagReasoner.Proofs.Matching.Idempotence
import TagReasoner.Proofs.Tag.CanonicalOrder
import TagReasoner.Proofs.Binary64.Significant
import TagReasoner.Proofs.Argument.NumberDisplay
