import SeriesFile.Document
import SeriesFile.Session
import SeriesFile.Proofs.PageRoundTrip
import SeriesFile.Proofs.Reading
import SeriesFile.Proofs.Draining
import SeriesFile.Proofs.Accepting
import SeriesFile.Proofs.Closing
import SeriesFile.Proofs.Correspondence
import SeriesFile.Proofs.Unsealed
import SeriesFile.Proofs.Merging
import SeriesFile.Proofs.TimeOrder
import SeriesFile.Proofs.Refusals
import SeriesFile.Proofs.Limits
import SeriesFile.Proofs.Conservation
import SeriesFile.Proofs.InStep
import SeriesFile.Proofs.SameContent
import SeriesFile.Proofs.AnySink
import SeriesFile.Proofs.OpenFiles
import SeriesFile.Proofs.Requests
import SeriesFile.Proofs.Isolation
import SeriesFile.Proofs.FooterRoundTrip
import SeriesFile.Proofs.Appending
import SeriesFile.Proofs.Holding
import SeriesFile.Proofs.Interleaving
import SeriesFile.Proofs.Bounds
import SeriesFile.Proofs.Pieces
import SeriesFile.Proofs.Delivering
import SeriesFile.Proofs.Records
import SeriesFile.Proofs.Pressure
import SeriesFile.Proofs.Splitting
import SeriesFile.Proofs.PageEnds
import SeriesFile.Proofs.PageCounts
import SeriesFile.Proofs.FooterLookup
import SeriesFile.Proofs.Grouping
import SeriesFile.Proofs.Progress
import SeriesFile.Proofs.Expansion
import SeriesFile.Proofs.Safety
import SeriesFile.Proofs.Tally
import SeriesFile.Proofs.Catalogues
import SeriesFile.Proofs.Listing
import SeriesFile.Proofs.Numbering
import SeriesFile.Proofs.VarintNumbers
