import PropertyTable.FileTree.Operations
import PropertyTable.Main
import PropertyTable.Proofs.Bitmap.Counting
import PropertyTable.Proofs.Bitmap.Inverse
import PropertyTable.Proofs.Build.Canonical
import PropertyTable.Proofs.Build.Commutation
import PropertyTable.Proofs.Build.Repetition
import PropertyTable.Proofs.Build.Report
import PropertyTable.Proofs.Build.Run
import PropertyTable.Proofs.Build.Table
import PropertyTable.Proofs.CodeRange.Walk
import PropertyTable.Proofs.CodeSet.Decomposition
import PropertyTable.Proofs.CodeSet.Equality
import PropertyTable.Proofs.CodeSet.Runs
import PropertyTable.Proofs.CommandLine.Spelling
import PropertyTable.Proofs.FileTree.Directories
import PropertyTable.Proofs.FileTree.Paths
import PropertyTable.Proofs.FileTree.Replacement
import PropertyTable.Proofs.Listing.Account
import PropertyTable.Proofs.Listing.Concatenation
import PropertyTable.Proofs.Listing.Diagnosis
import PropertyTable.Proofs.Listing.FirstFault
import PropertyTable.Proofs.Listing.Layout
import PropertyTable.Proofs.Listing.Repetition
import PropertyTable.Proofs.Listing.RoundTrip
import PropertyTable.Proofs.Listing.Shortest
import PropertyTable.Proofs.Lookup.Enumeration
import PropertyTable.Proofs.Program.Answers
import PropertyTable.Proofs.TableSource.Size
